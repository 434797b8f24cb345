import Xv6.User.Malloc

/-!
# The heap stays in order

`Good base s F L`: the free list is a ring through `base` with the blocks `F`, in the order of
their addresses, and no two of them touch; together with the blocks `L` that are in use they
make up the memory that the kernel has given. Both `free` and the two ways to allocate keep
this, and it makes their loops end.
-/

namespace Xv6.User

open Links Extents

/-- The addresses of the free list, from `base` on. -/
def nodes (base : Nat) (F : List Extent) : List Nat := base :: F.map Prod.fst

/-- The blocks `B` make up the memory that the kernel has given, and their headers are right. -/
structure Store (base : Nat) (s : Heap) (B : List Extent) : Prop where
  zero : (s.hdr base).size = 0
  sizes : ∀ x ∈ B, (s.hdr x.1).size = x.2
  tiles : Tiles HEADER B s.regions
  nonnull : 0 < base
  low : ∀ x ∈ B, base + HEADER ≤ x.1
  high : ∀ x ∈ B, stop HEADER x ≤ s.brk
  brk : base + HEADER ≤ s.brk
  small : s.units < 2 ^ 32

/-- `x` ends before `y` begins, and they do not touch. -/
def Before (x y : Extent) : Prop := stop HEADER x < y.1

structure Good (base : Nat) (s : Heap) (F L : List Extent) : Prop where
  ring : Path (fun p => (s.hdr p).ptr) base (nodes base F) base
  freep : s.freep ∈ nodes base F
  order : ((base, 0) :: F).Pairwise Before
  store : Store base s (F ++ L)

section Setters

variable {s : Heap} {a b p n : Nat}

@[simp] theorem setPtr_ptr : ((s.setPtr a p).hdr b).ptr = if b = a then p else (s.hdr b).ptr := by
  by_cases e : b = a
  · subst e
    simp [Heap.setPtr]
  · simp [Heap.setPtr, e]

@[simp] theorem setPtr_size : ((s.setPtr a p).hdr b).size = (s.hdr b).size := by
  by_cases e : b = a
  · subst e
    simp [Heap.setPtr]
  · simp [Heap.setPtr, e]

@[simp] theorem setSize_ptr : ((s.setSize a n).hdr b).ptr = (s.hdr b).ptr := by
  by_cases e : b = a
  · subst e
    simp [Heap.setSize]
  · simp [Heap.setSize, e]

@[simp] theorem setSize_size : ((s.setSize a n).hdr b).size = if b = a then uint n else (s.hdr b).size := by
  by_cases e : b = a
  · subst e
    simp [Heap.setSize]
  · simp [Heap.setSize, e]

@[simp] theorem setSize_brk : (s.setSize a n).brk = s.brk := rfl

theorem uint_of_lt (h : n < 2 ^ 32) : uint n = n := Nat.mod_eq_of_lt h

end Setters

section Store

variable {base : Nat} {s : Heap} {B B' : List Extent} {x y : Extent} {a n m : Nat}

theorem Store.perm (S : Store base s B) (h : B.Perm B') : Store base s B' :=
  ⟨S.zero, fun x hx => S.sizes x (h.mem_iff.mpr hx), S.tiles.perm h, S.nonnull,
    fun x hx => S.low x (h.mem_iff.mpr hx), fun x hx => S.high x (h.mem_iff.mpr hx), S.brk, S.small⟩

theorem Store.ne_base (S : Store base s B) (hx : x ∈ B) : x.1 ≠ base := by
  have := S.low x hx
  simp only [HEADER] at this
  omega

/-- The links are not looked at. -/
theorem Store.setPtr (S : Store base s B) {p : Nat} : Store base (s.setPtr a p) B :=
  ⟨setPtr_size.trans S.zero, fun x hx => setPtr_size.trans (S.sizes x hx), S.tiles, S.nonnull, S.low, S.high,
    S.brk, S.small⟩

theorem Store.setFreep (S : Store base s B) {p : Nat} : Store base { s with freep := p } B :=
  ⟨S.zero, S.sizes, S.tiles, S.nonnull, S.low, S.high, S.brk, S.small⟩

/-- No other block starts inside this one. -/
theorem Store.fst_ne (S : Store base s (x :: B)) (hy : y ∈ B) : y.1 < x.1 ∨ stop HEADER x ≤ y.1 := by
  have apart := (List.pairwise_cons.mp S.tiles.apart).1 y hy
  have pos := S.tiles.pos y (List.mem_cons_of_mem x hy)
  simp only [Apart, stop, HEADER] at apart ⊢
  omega

theorem Store.size_le (S : Store base s (x :: B)) : x.2 < 2 ^ 32 := by
  have total := S.tiles.total
  have := S.small
  simp only [List.map_cons, List.sum_cons, Heap.units] at total this
  omega

/-- Two blocks that touch are joined. -/
theorem Store.join (S : Store base s ((a, n) :: (a + HEADER * n, m) :: B)) :
    Store base (s.setSize a (n + m)) ((a, n + m) :: B) where
  zero := by
    rw [setSize_size, if_neg (S.ne_base List.mem_cons_self).symm]
    exact S.zero
  sizes := by
    have tiles := S.tiles.join (by decide)
    have len : uint (n + m) = n + m := by
      refine uint_of_lt ?_
      have total := tiles.total
      have := S.small
      simp only [List.map_cons, List.sum_cons, Heap.units] at total this
      omega
    refine List.forall_mem_cons.mpr ⟨by rw [setSize_size, if_pos rfl, len], fun x hx => ?_⟩
    have ne : x.1 ≠ a := by
      have pos := S.tiles.pos _ List.mem_cons_self
      have := S.fst_ne (List.mem_cons_of_mem _ hx)
      simp only [stop, HEADER] at this pos
      omega
    rw [setSize_size, if_neg ne]
    exact S.sizes x (List.mem_cons_of_mem _ (List.mem_cons_of_mem _ hx))
  tiles := S.tiles.join (by decide)
  nonnull := S.nonnull
  low := List.forall_mem_cons.mpr ⟨S.low (a, n) List.mem_cons_self,
    fun x hx => S.low x (List.mem_cons_of_mem _ (List.mem_cons_of_mem _ hx))⟩
  high := by
    refine List.forall_mem_cons.mpr ⟨?_, fun x hx => S.high x (List.mem_cons_of_mem _ (List.mem_cons_of_mem _ hx))⟩
    have := S.high (a + HEADER * n, m) (by simp)
    simp only [stop, HEADER, setSize_brk] at this ⊢
    omega
  brk := S.brk
  small := S.small

/-- The last `m` units of a block become a block of their own. -/
theorem Store.cut (S : Store base s ((a, n + m) :: B)) (hn : 0 < n) (hm : 0 < m) :
    Store base ((s.setSize a n).setSize (a + HEADER * n) m) ((a, n) :: (a + HEADER * n, m) :: B) where
  zero := by
    have low := S.low _ List.mem_cons_self
    simp only [HEADER] at low
    rw [setSize_size, if_neg (by omega), setSize_size, if_neg (by omega)]
    exact S.zero
  sizes := by
    have small := S.size_le
    have lenN : uint n = n := uint_of_lt (by omega)
    have lenM : uint m = m := uint_of_lt (by omega)
    refine List.forall_mem_cons.mpr ⟨?_, List.forall_mem_cons.mpr ⟨?_, fun x hx => ?_⟩⟩
    · rw [setSize_size, if_neg (by simp only [HEADER]; omega), setSize_size, if_pos rfl, lenN]
    · rw [setSize_size, if_pos rfl, lenM]
    · have out := S.fst_ne hx
      simp only [stop, HEADER] at out
      rw [setSize_size, if_neg (by simp only [HEADER]; omega), setSize_size, if_neg (by omega)]
      exact S.sizes x (List.mem_cons_of_mem _ hx)
  tiles := S.tiles.split hn hm
  nonnull := S.nonnull
  low := by
    have low := S.low _ List.mem_cons_self
    refine List.forall_mem_cons.mpr ⟨low, List.forall_mem_cons.mpr ⟨Nat.le_add_right_of_le low, fun x hx => ?_⟩⟩
    exact S.low x (List.mem_cons_of_mem _ hx)
  high := by
    have high := S.high _ List.mem_cons_self
    simp only [stop, HEADER] at high
    refine List.forall_mem_cons.mpr ⟨?_, List.forall_mem_cons.mpr ⟨?_, fun x hx => ?_⟩⟩
    · simp only [stop, HEADER, setSize_brk]
      omega
    · simp only [stop, HEADER, setSize_brk]
      omega
    · exact S.high x (List.mem_cons_of_mem _ hx)
  brk := S.brk
  small := S.small

end Store

section Good

variable {base : Nat} {s : Heap} {F F₁ F₂ L : List Extent} {x y : Extent} {p q bp n : Nat}

/-- The nodes of the free list are in order. -/
theorem nodes_sorted (order : ((base, 0) :: F).Pairwise Before) : (nodes base F).Pairwise (· < ·) := by
  have starts : nodes base F = ((base, 0) :: F).map Prod.fst := rfl
  rw [starts, List.pairwise_map]
  exact order.imp fun h => lt_of_le_of_lt (Nat.le_add_right _ _) h

theorem base_le (order : ((base, 0) :: F).Pairwise Before) {x : Nat} (hx : x ∈ nodes base F) : base ≤ x := by
  rcases List.mem_cons.mp hx with rfl | hx
  · exact le_rfl
  · exact ((List.pairwise_cons.mp (nodes_sorted order)).1 x hx).le

theorem Good.nodup (G : Good base s F L) : (nodes base F).Nodup :=
  (nodes_sorted G.order).imp fun h => Nat.ne_of_lt h

theorem Good.freep_pos (G : Good base s F L) : 0 < s.freep :=
  G.store.nonnull.trans_le (base_le G.order G.freep)

/-! ## The place of a block in the free list -/

theorem exists_split (order : F.Pairwise Before) (fresh : ∀ x ∈ F, x.1 ≠ bp) :
    ∃ F₁ F₂, F = F₁ ++ F₂ ∧ (∀ x ∈ F₁, x.1 < bp) ∧ ∀ x ∈ F₂, bp < x.1 := by
  induction F with
  | nil => exact ⟨[], [], rfl, nofun, nofun⟩
  | cons y F ih =>
    obtain ⟨first, order⟩ := List.pairwise_cons.mp order
    obtain ⟨hy, fresh⟩ := List.forall_mem_cons.mp fresh
    rcases Nat.lt_or_gt_of_ne hy with low | high
    · obtain ⟨F₁, F₂, rfl, h₁, h₂⟩ := ih order fresh
      exact ⟨y :: F₁, F₂, rfl, List.forall_mem_cons.mpr ⟨low, h₁⟩, h₂⟩
    · refine ⟨[], y :: F, rfl, nofun, List.forall_mem_cons.mpr ⟨high, fun x hx => ?_⟩⟩
      have := first x hx
      simp only [Before, stop] at this
      omega

/-- `p` is the last node before `bp`. -/
structure Place (base : Nat) (F₁ F₂ : List Extent) (bp : Nat) (l : List Nat) (p : Nat) : Prop where
  front : nodes base F₁ = l ++ [p]
  below : base < bp ∧ ∀ x ∈ F₁, x.1 < bp
  above : ∀ x ∈ F₂, bp < x.1

theorem Place.exists (low : base < bp) (h₁ : ∀ x ∈ F₁, x.1 < bp) (h₂ : ∀ x ∈ F₂, bp < x.1) :
    ∃ l p, Place base F₁ F₂ bp l p := by
  have ne : nodes base F₁ ≠ [] := List.cons_ne_nil _ _
  exact ⟨_, _, (List.dropLast_append_getLast ne).symm, ⟨low, h₁⟩, h₂⟩

variable {l : List Nat}

theorem Place.all (P : Place base F₁ F₂ bp l p) :
    nodes base (F₁ ++ F₂) = l ++ p :: F₂.map Prod.fst := by
  have := P.front
  rw [nodes] at this ⊢
  rw [List.map_append, ← List.cons_append, this, List.append_assoc]
  rfl

theorem Place.lt (P : Place base F₁ F₂ bp l p) {x : Nat} (hx : x ∈ l ++ [p]) : x < bp := by
  rw [← P.front] at hx
  rcases List.mem_cons.mp hx with rfl | hx
  · exact P.below.1
  · obtain ⟨y, hy, rfl⟩ := List.mem_map.mp hx
    exact P.below.2 y hy

/-- The test in the loop of `free` finds the place. -/
theorem Place.between_iff (P : Place base F₁ F₂ bp l p)
    (ring : Path (fun p => (s.hdr p).ptr) base (nodes base (F₁ ++ F₂)) base)
    (order : ((base, 0) :: (F₁ ++ F₂)).Pairwise Before) {x : Nat} (hx : x ∈ nodes base (F₁ ++ F₂)) :
    between s.hdr bp x = true ↔ x = p := by
  have sorted := nodes_sorted order
  have low := P.below.1
  rw [P.all] at sorted ring hx
  simp only [between, decide_eq_true_eq]
  rcases List.mem_append.mp hx with hl | hr
  · -- the next node is still below `bp`
    obtain ⟨u, v, rfl⟩ := List.append_of_mem hl
    have later := List.pairwise_append.mp sorted
    have ne : x ≠ p := Nat.ne_of_lt (later.2.2 x (by simp) p List.mem_cons_self)
    rw [List.append_assoc, List.cons_append] at ring
    have next := (path_cons_append.mp ring).2
    obtain ⟨y, hy, hxy, eq⟩ : ∃ y, y ∈ (u ++ x :: v) ++ [p] ∧ x < y ∧ (s.hdr x).ptr = y := by
      cases v with
      | nil => exact ⟨p, by simp, later.2.2 x (by simp) p List.mem_cons_self, next.1⟩
      | cons y v =>
        refine ⟨y, by simp, ?_, next.1⟩
        have := (List.pairwise_append.mp later.1).2.1
        exact (List.pairwise_cons.mp this).1 y List.mem_cons_self
    have := P.lt hy
    rw [eq]
    omega
  · rcases List.mem_cons.mp hr with rfl | hr
    · have next := (path_cons_append.mp ring).2
      have := P.lt (x := x) (by simp)
      refine iff_of_true ?_ rfl
      cases F₂ with
      | nil =>
        obtain eq : (s.hdr x).ptr = base := next
        have := base_le order (P.all ▸ hx)
        omega
      | cons y F₂ =>
        have := P.above y List.mem_cons_self
        obtain eq : (s.hdr x).ptr = y.1 := next.1
        omega
    · -- the node is above `bp`, and so is the next one unless it is `base`
      obtain ⟨y, hy, rfl⟩ := List.mem_map.mp hr
      have above := P.above y hy
      have := P.lt (x := p) (by simp)
      obtain ⟨u, v, h⟩ := List.append_of_mem hr
      rw [h, ← List.cons_append, ← List.append_assoc] at ring sorted
      have next := (path_cons_append.mp ring).2
      cases v with
      | nil =>
        obtain eq : (s.hdr y.1).ptr = base := next
        omega
      | cons z v =>
        obtain eq : (s.hdr y.1).ptr = z := next.1
        have := (List.pairwise_append.mp sorted).2.1
        have := (List.pairwise_cons.mp this).1 z List.mem_cons_self
        omega

/-- The ring as it is seen from `freep`. -/
theorem Good.from_freep (G : Good base s F L) : ∃ l, (nodes base F).Perm (s.freep :: l) ∧
    Path (fun p => (s.hdr p).ptr) s.freep (s.freep :: l) s.freep := by
  obtain ⟨u, v, h⟩ := List.append_of_mem G.freep
  have ring := G.ring
  rw [h] at ring ⊢
  exact ⟨v ++ u, List.perm_append_comm, ring.rotate⟩

/-- The loop of `free` ends at the place. -/
theorem Good.seek_place (G : Good base s (F₁ ++ F₂) L) (P : Place base F₁ F₂ bp l p) {fuel : Nat}
    (enough : (F₁ ++ F₂).length < fuel) :
    seek (fun p => (s.hdr p).ptr) (between s.hdr bp) fuel s.freep = some p := by
  obtain ⟨m, perm, ring⟩ := G.from_freep
  have mem : p ∈ s.freep :: m := perm.mem_iff.mp (by rw [P.all]; simp)
  obtain ⟨u, v, h⟩ := List.append_of_mem mem
  have nodup : (u ++ p :: v).Nodup := h ▸ perm.nodup G.nodup
  rw [h] at ring perm
  have node : ∀ {x}, x ∈ u ++ p :: v → x ∈ nodes base (F₁ ++ F₂) := fun hx => perm.mem_iff.mpr hx
  refine (path_cons_append.mp ring).1.seek (fun x hx => ?_) ?_ ?_
  · have ne : x ≠ p := fun e => (List.nodup_append.mp nodup).2.2 x hx p List.mem_cons_self e
    have := (P.between_iff G.ring G.order (node (List.mem_append_left _ hx))).not.mpr ne
    simpa using this
  · exact (P.between_iff G.ring G.order (node (by simp))).mpr rfl
  · have := perm.length_eq
    simp only [nodes, List.length_cons, List.length_append, List.length_map] at this enough
    omega

theorem perm_front : (F₁ ++ x :: F₂ ++ L).Perm (x :: (F₁ ++ F₂ ++ L)) := by
  rw [List.append_assoc, List.append_assoc]
  exact List.perm_middle

/-! ## free -/

/-- The block `bp` has been joined with what follows it, and is not in the list yet. -/
structure Pending (base : Nat) (s : Heap) (F₁ F₂ L : List Extent) (bp n : Nat) (l : List Nat) (p : Nat) :
    Prop where
  front : nodes base F₁ = l ++ [p]
  upto : Path (fun p => (s.hdr p).ptr) base l p
  behind : Path (fun p => (s.hdr p).ptr) (s.hdr bp).ptr (F₂.map Prod.fst) base
  order : ((base, 0) :: (F₁ ++ F₂)).Pairwise Before
  below : ∀ x ∈ F₁, stop HEADER x ≤ bp
  above : ∀ x ∈ F₂, Before (bp, n) x
  store : Store base s ((bp, n) :: (F₁ ++ F₂ ++ L))

/-- What is known about a block that is to be freed and the free blocks around it. -/
theorem Place.apart (P : Place base F₁ F₂ bp l p) (G : Good base s (F₁ ++ F₂) ((bp, n) :: L)) :
    (∀ x ∈ F₁, stop HEADER x ≤ bp) ∧ ∀ x ∈ F₂, bp + HEADER * n ≤ x.1 := by
  have S := G.store.perm List.perm_middle
  have apart : ∀ x ∈ F₁ ++ F₂, Apart HEADER (bp, n) x := fun x hx =>
    (List.pairwise_cons.mp S.tiles.apart).1 x (List.mem_append_left L hx)
  have pos := S.tiles.pos (bp, n) List.mem_cons_self
  constructor
  · intro x hx
    have := apart x (List.mem_append_left _ hx)
    have := P.below.2 x hx
    simp only [Apart, stop, HEADER] at *
    omega
  · intro x hx
    have := apart x (List.mem_append_right _ hx)
    have := P.above x hx
    simp only [Apart, stop, HEADER] at *
    omega

theorem Good.joinUpper (G : Good base s (F₁ ++ F₂) ((bp, n) :: L)) (P : Place base F₁ F₂ bp l p) :
    ∃ F₂' n', n ≤ n' ∧ Pending base (joinUpper s bp p) F₁ F₂' L bp n' l p := by
  have S := G.store.perm List.perm_middle
  have size : (s.hdr bp).size = n := S.sizes (bp, n) List.mem_cons_self
  have ring := G.ring
  rw [P.all] at ring
  obtain ⟨upto, behind⟩ := path_cons_append.mp ring
  obtain ⟨below, above⟩ := P.apart G
  have notin : bp ∉ l := fun h => (P.lt (List.mem_append_left [p] h)).ne rfl
  have other : ∀ x ∈ F₂, x.1 ≠ bp := fun x hx => (P.above x hx).ne'
  have frame : ∀ {t : Heap}, (∀ a, a ≠ bp → (t.hdr a).ptr = (s.hdr a).ptr) →
      Path (fun p => (t.hdr p).ptr) base l p := by
    intro t same
    exact upto.frame fun x hx => same x fun e => notin (e ▸ hx)
  rw [User.joinUpper, size]
  split
  · rename_i touch
    cases F₂ with
    | nil =>
      obtain eq : (s.hdr p).ptr = base := behind
      have := P.below.1
      omega
    | cons y F₂ =>
      obtain ⟨a, m⟩ := y
      obtain ⟨eq, behind⟩ : (s.hdr p).ptr = a ∧ _ := behind
      obtain rfl : bp + HEADER * n = a := touch.trans eq
      have sizeA : (s.hdr (bp + HEADER * n)).size = m := S.sizes (bp + HEADER * n, m) (by simp)
      rw [eq, sizeA]
      have perm : ((bp, n) :: (F₁ ++ (bp + HEADER * n, m) :: F₂ ++ L)).Perm
          ((bp, n) :: (bp + HEADER * n, m) :: (F₁ ++ F₂ ++ L)) := .cons _ perm_front
      obtain ⟨-, order⟩ := List.pairwise_append.mp (List.pairwise_cons.mp G.order).2
      refine ⟨F₂, n + m, Nat.le_add_right n m, P.front, frame (fun a h => by simp [h]), ?_, ?_, below, ?_, ?_⟩
      · refine Path.frame (by simpa using behind) fun x hx => ?_
        obtain ⟨y, hy, rfl⟩ := List.mem_map.mp hx
        simp [other y (List.mem_cons_of_mem _ hy)]
      · exact G.order.sublist (.cons_cons _ (.append (.refl _) (.cons _ (.refl _))))
      · intro x hx
        have := (List.pairwise_cons.mp order.1).1 x hx
        simp only [Before, stop, HEADER] at this ⊢
        omega
      · exact (S.perm perm).join.setPtr
  · rename_i apart
    refine ⟨F₂, n, le_rfl, P.front, frame (fun a h => by simp [h]), ?_, G.order, below, ?_, S.setPtr⟩
    · refine Path.frame (by simpa using behind) fun x hx => ?_
      obtain ⟨y, hy, rfl⟩ := List.mem_map.mp hx
      simp [other y hy]
    · -- only the first block could touch
      cases F₂ with
      | nil => exact List.forall_mem_nil _
      | cons y F₂ =>
        obtain eq : (s.hdr p).ptr = y.1 := behind.1
        have first : Before (bp, n) y := by
          have := above y List.mem_cons_self
          simp only [Before, stop]
          omega
        refine List.forall_mem_cons.mpr ⟨first, fun x hx => ?_⟩
        obtain ⟨-, order, -⟩ := List.pairwise_append.mp (List.pairwise_cons.mp G.order).2
        have := (List.pairwise_cons.mp order).1 x hx
        simp only [Before, stop, HEADER] at this first ⊢
        omega

theorem pairwise_insert {R : Extent → Extent → Prop} {A B : List Extent} {z : Extent} (h : (A ++ B).Pairwise R)
    (h₁ : ∀ a ∈ A, R a z) (h₂ : ∀ b ∈ B, R z b) : (A ++ z :: B).Pairwise R := by
  obtain ⟨hA, hB, hAB⟩ := List.pairwise_append.mp h
  refine List.pairwise_append.mpr ⟨hA, List.pairwise_cons.mpr ⟨h₂, hB⟩, fun a ha => ?_⟩
  exact List.forall_mem_cons.mpr ⟨h₁ a ha, hAB a ha⟩

/-- The node before `bp` is `base`, or the last block of `F₁`. -/
theorem Pending.last (H : Pending base s F₁ F₂ L bp n l p) :
    p = base ∧ F₁ = [] ∨ ∃ F k, F₁ = F ++ [(p, k)] ∧ l = nodes base F := by
  have front := H.front
  rcases List.eq_nil_or_concat F₁ with rfl | ⟨F, y, rfl⟩
  · obtain ⟨-, h⟩ := List.append_inj' (show [] ++ [base] = l ++ [p] from front) rfl
    exact Or.inl ⟨(List.cons.inj h).1.symm, rfl⟩
  · rw [List.concat_eq_append, nodes, List.map_append, ← List.cons_append] at front
    obtain ⟨h₁, h₂⟩ := List.append_inj' front rfl
    obtain ⟨rfl, -⟩ := List.cons.inj h₂
    exact Or.inr ⟨F, y.2, List.concat_eq_append .., h₁.symm⟩

/-- `p` is not met again. -/
theorem Pending.once (H : Pending base s F₁ F₂ L bp n l p) : p ∉ l ∧ ∀ x ∈ F₂, x.1 ≠ p := by
  have sorted := nodes_sorted H.order
  have all : nodes base (F₁ ++ F₂) = l ++ p :: F₂.map Prod.fst := by
    rw [nodes, List.map_append, ← List.cons_append]
    show nodes base F₁ ++ _ = _
    rw [H.front, List.append_assoc]
    rfl
  rw [all] at sorted
  obtain ⟨-, above, below⟩ := List.pairwise_append.mp sorted
  constructor
  · exact fun h => (below p h p List.mem_cons_self).ne rfl
  · exact fun x hx => ((List.pairwise_cons.mp above).1 _ (List.mem_map_of_mem hx)).ne'

/-- `bp` touches the block before it and is joined with it. -/
theorem Pending.join {F : List Extent} {k : Nat}
    (H : Pending base s (F ++ [(p, k)]) F₂ L (p + HEADER * k) n (nodes base F) p) :
    Good base { (s.setSize p (k + n)).setPtr p (s.hdr (p + HEADER * k)).ptr with freep := p }
      (F ++ (p, k + n) :: F₂) L where
  ring := by
    obtain ⟨outL, outF⟩ := H.once
    rw [nodes, List.map_append, List.map_cons, ← List.cons_append]
    refine path_cons_append.mpr ⟨H.upto.frame fun x hx => ?_, ?_⟩
    · have : x ≠ p := fun e => outL (e ▸ hx)
      simp [this]
    · refine Path.frame (by simpa using H.behind) fun x hx => ?_
      obtain ⟨y, hy, rfl⟩ := List.mem_map.mp hx
      simp [outF y hy]
  freep := by simp [nodes]
  order := by
    have order := H.order
    rw [List.append_assoc, ← List.cons_append] at order
    refine pairwise_insert (A := (base, 0) :: F) ?_ (fun a ha => ?_) fun b hb => ?_
    · exact order.sublist (.append (.refl _) (.cons _ (.refl _)))
    · exact (List.pairwise_append.mp order).2.2 a ha (p, k) List.mem_cons_self
    · have := H.above b hb
      simp only [Before, stop, HEADER] at this ⊢
      omega
  store := by
    have perm : ((p + HEADER * k, n) :: (F ++ [(p, k)] ++ F₂ ++ L)).Perm
        ((p, k) :: (p + HEADER * k, n) :: (F ++ F₂ ++ L)) := by
      refine (List.Perm.cons _ ?_).trans (.swap _ _ _)
      rw [List.append_assoc F]
      exact perm_front
    exact ((H.store.perm perm).join.setPtr.perm perm_front.symm).setFreep

/-- `bp` does not touch the block before it and becomes a node of its own. -/
theorem Pending.insert (H : Pending base s F₁ F₂ L bp n l p) (apart : p + HEADER * (s.hdr p).size ≠ bp) :
    Good base { s.setPtr p bp with freep := p } (F₁ ++ (bp, n) :: F₂) L := by
  obtain ⟨outL, outF⟩ := H.once
  have lowBp : base + HEADER ≤ bp := H.store.low (bp, n) List.mem_cons_self
  have before : ∀ x ∈ F₁, stop HEADER x < bp := by
    rcases H.last with ⟨-, rfl⟩ | ⟨F, k, rfl, rfl⟩
    · nofun
    · have sizeP : (s.hdr p).size = k := H.store.sizes (p, k) (by simp)
      intro x hx
      have below := H.below x hx
      rcases List.mem_append.mp hx with hx | hx
      · have order := (List.pairwise_append.mp (List.pairwise_cons.mp H.order).2).1
        have := (List.pairwise_append.mp order).2.2 x hx (p, k) List.mem_cons_self
        have := H.below (p, k) (by simp)
        simp only [Before, stop] at *
        omega
      · obtain rfl := List.mem_singleton.mp hx
        rw [sizeP] at apart
        exact lt_of_le_of_ne below apart
  have ne : p ≠ bp := by
    rcases H.last with ⟨rfl, -⟩ | ⟨F, k, rfl, rfl⟩
    · simp only [HEADER] at lowBp
      omega
    · have := before (p, k) (by simp)
      simp only [stop] at this
      omega
  have front : nodes base (F₁ ++ (bp, n) :: F₂) = l ++ p :: bp :: F₂.map Prod.fst := by
    rw [nodes, List.map_append, ← List.cons_append]
    show nodes base F₁ ++ _ = _
    rw [H.front, List.append_assoc]
    rfl
  refine ⟨?_, ?_, ?_, ?_⟩
  · rw [front]
    refine path_cons_append.mpr ⟨H.upto.frame fun x hx => ?_, ?_, ?_⟩
    · have : x ≠ p := fun e => outL (e ▸ hx)
      simp [this]
    · simp
    · refine Path.frame (by simpa [ne.symm] using H.behind) fun x hx => ?_
      obtain ⟨y, hy, rfl⟩ := List.mem_map.mp hx
      simp [outF y hy]
  · rw [front]
    simp
  · refine pairwise_insert (A := (base, 0) :: F₁) H.order (List.forall_mem_cons.mpr ⟨?_, before⟩) H.above
    simp only [Before, stop, HEADER] at lowBp ⊢
    omega
  · exact (H.store.setPtr.perm perm_front.symm).setFreep

theorem Pending.joinLower (H : Pending base s F₁ F₂ L bp n l p) :
    ∃ F, (∃ x ∈ F, n ≤ x.2) ∧ Good base { joinLower s bp p with freep := p } F L := by
  have size : (s.hdr bp).size = n := H.store.sizes (bp, n) List.mem_cons_self
  rw [User.joinLower, size]
  split
  · rename_i touch
    rcases H.last with ⟨rfl, -⟩ | ⟨F, k, rfl, rfl⟩
    · have := H.store.low (bp, n) List.mem_cons_self
      rw [H.store.zero] at touch
      simp only [HEADER] at *
      omega
    · have sizeP : (s.hdr p).size = k := H.store.sizes (p, k) (by simp)
      rw [sizeP] at touch ⊢
      subst touch
      exact ⟨_, ⟨(p, k + n), by simp, Nat.le_add_left n k⟩, H.join⟩
  · rename_i apart
    exact ⟨_, ⟨(bp, n), by simp, le_rfl⟩, H.insert apart⟩

/-- `free` of a block in use puts it into the free list. -/
theorem Good.free (G : Good base s F ((bp, n) :: L)) {fuel : Nat} (enough : F.length < fuel) :
    ∃ s' F', free fuel s (bp + HEADER) = some s' ∧ Good base s' F' L ∧ ∃ x ∈ F', n ≤ x.2 := by
  have S := G.store.perm List.perm_middle
  have low : base + HEADER ≤ bp := S.low (bp, n) List.mem_cons_self
  have fresh : ∀ x ∈ F, x.1 ≠ bp := by
    intro x hx
    have pos := S.tiles.pos (bp, n) List.mem_cons_self
    have := S.fst_ne (List.mem_append_left L hx)
    simp only [stop, HEADER] at this pos
    omega
  obtain ⟨F₁, F₂, rfl, h₁, h₂⟩ := exists_split (List.pairwise_cons.mp G.order).2 fresh
  obtain ⟨l, p, P⟩ := Place.exists (show base < bp by simp only [HEADER] at low; omega) h₁ h₂
  obtain ⟨F₂', n', le, H⟩ := G.joinUpper P
  obtain ⟨F', ⟨x, hx, large⟩, G'⟩ := H.joinLower
  refine ⟨_, F', ?_, G', x, hx, le.trans large⟩
  rw [User.free, Nat.add_sub_cancel, G.seek_place P enough]
  rfl

/-! ## malloc -/

theorem nodes_split {u v : List Nat} (h : nodes base F = u ++ q :: p :: v) :
    ∃ F₁ k F₂, F = F₁ ++ (p, k) :: F₂ ∧ nodes base F₁ = u ++ [q] ∧ F₂.map Prod.fst = v := by
  have h' : base :: F.map Prod.fst = (u ++ [q]) ++ p :: v := by
    rw [List.append_assoc]
    exact h
  obtain ⟨w, hw⟩ : ∃ w, u ++ [q] = base :: w := by
    cases u with
    | nil => exact ⟨[], by simpa using (List.cons.inj h').1.symm⟩
    | cons b u => exact ⟨u ++ [q], by rw [(List.cons.inj h').1]; rfl⟩
  rw [hw, List.cons_append] at h'
  obtain ⟨F₁, G, rfl, rfl, hG⟩ := List.map_eq_append_iff.mp (List.cons.inj h').2
  obtain ⟨y, F₂, rfl, rfl, rfl⟩ := List.map_eq_cons_iff.mp hG
  exact ⟨F₁, y.2, F₂, rfl, hw.symm, rfl⟩

/-- `q` points to the block `(p, k)`. -/
structure Points (base : Nat) (s : Heap) (F₁ F₂ : List Extent) (u : List Nat) (q p k : Nat) : Prop where
  front : nodes base F₁ = u ++ [q]
  upto : Path (fun p => (s.hdr p).ptr) base u q
  behind : Path (fun p => (s.hdr p).ptr) (s.hdr p).ptr (F₂.map Prod.fst) base
  once : q ∉ u ∧ ∀ x ∈ F₂, x.1 ≠ q

theorem Good.points (G : Good base s F L) (prev : q ∈ nodes base F) (next : (s.hdr q).ptr = p)
    (ne : p ≠ base) : ∃ F₁ k F₂ u, F = F₁ ++ (p, k) :: F₂ ∧ Points base s F₁ F₂ u q p k := by
  obtain ⟨u, v, hu⟩ := List.append_of_mem prev
  have ring := G.ring
  have nodup := G.nodup
  rw [hu] at ring nodup
  obtain ⟨upto, behind⟩ := path_cons_append.mp ring
  obtain ⟨v, rfl⟩ : ∃ v', v = p :: v' := by
    cases v with
    | nil => exact absurd (next.symm.trans behind) ne
    | cons y v => exact ⟨v, by rw [← next, behind.1]⟩
  obtain ⟨F₁, k, F₂, rfl, front, rfl⟩ := nodes_split hu
  refine ⟨F₁, k, F₂, u, rfl, front, upto, behind.2, ?_, ?_⟩
  · exact fun h => (List.nodup_append.mp nodup).2.2 q h q List.mem_cons_self rfl
  · rintro x hx rfl
    have := (List.nodup_cons.mp (List.nodup_append.mp nodup).2.1).1
    exact this (List.mem_cons_of_mem p (List.mem_map_of_mem hx))

/-- A block of the right size leaves the list. -/
theorem Good.takeWhole {k : Nat} {u : List Nat} (G : Good base s (F₁ ++ (p, k) :: F₂) L)
    (P : Points base s F₁ F₂ u q p k) :
    Good base { s.setPtr q (s.hdr p).ptr with freep := q } (F₁ ++ F₂) ((p, k) :: L) := by
  have all : nodes base (F₁ ++ F₂) = u ++ q :: F₂.map Prod.fst := by
    rw [nodes, List.map_append, ← List.cons_append]
    show nodes base F₁ ++ _ = _
    rw [P.front, List.append_assoc]
    rfl
  refine ⟨?_, ?_, ?_, ?_⟩
  · rw [all]
    refine path_cons_append.mpr ⟨P.upto.frame fun x hx => ?_, ?_⟩
    · have : x ≠ q := fun e => P.once.1 (e ▸ hx)
      simp [this]
    · refine Path.frame (by simpa using P.behind) fun x hx => ?_
      obtain ⟨y, hy, rfl⟩ := List.mem_map.mp hx
      simp [P.once.2 y hy]
  · rw [all]
    simp
  · exact G.order.sublist (.cons_cons _ (.append (.refl _) (.cons _ (.refl _))))
  · exact (G.store.setPtr.perm (perm_front.trans List.perm_middle.symm)).setFreep

/-- The end of a larger block leaves it. -/
theorem Good.takeEnd {k nu : Nat} {u : List Nat} (G : Good base s (F₁ ++ (p, k + nu) :: F₂) L)
    (P : Points base s F₁ F₂ u q p (k + nu)) (hk : 0 < k) (pos : 0 < nu) :
    Good base { (s.setSize p k).setSize (p + HEADER * k) nu with freep := q } (F₁ ++ (p, k) :: F₂)
      ((p + HEADER * k, nu) :: L) := by
  have same : nodes base (F₁ ++ (p, k) :: F₂) = nodes base (F₁ ++ (p, k + nu) :: F₂) := by simp [nodes]
  refine ⟨?_, ?_, ?_, ?_⟩
  · rw [same]
    exact G.ring.frame fun x _ => by simp
  · rw [nodes, List.map_append, ← List.cons_append]
    refine List.mem_append_left _ ?_
    show q ∈ nodes base F₁
    rw [P.front]
    simp
  · have order := G.order
    rw [← List.cons_append] at order
    obtain ⟨-, later, earlier⟩ := List.pairwise_append.mp order
    refine pairwise_insert (A := (base, 0) :: F₁) (order.sublist (.append (.refl _) (.cons _ (.refl _))))
      (fun x hx => earlier x hx (p, k + nu) List.mem_cons_self) fun x hx => ?_
    have := (List.pairwise_cons.mp later).1 x hx
    simp only [Before, stop, HEADER] at this ⊢
    omega
  · have S := (G.store.perm perm_front).cut hk pos
    refine (S.perm ?_).setFreep
    refine (List.Perm.swap _ _ _).trans ?_
    exact (List.Perm.cons _ perm_front.symm).trans List.perm_middle.symm

/-- `allocate` takes a block out of the list, or the end of one. -/
theorem Good.allocate (G : Good base s F L) {nu : Nat} (prev : q ∈ nodes base F) (next : (s.hdr q).ptr = p)
    (pos : 0 < nu) (large : nu ≤ (s.hdr p).size) :
    ∃ s' F' a, allocate s nu q p = (s', a + HEADER) ∧ Good base s' F' ((a, nu) :: L) := by
  have ne : p ≠ base := by
    rintro rfl
    have := G.store.zero
    omega
  obtain ⟨F₁, k, F₂, u, rfl, P⟩ := G.points prev next ne
  have size : (s.hdr p).size = k := G.store.sizes (p, k) (by simp)
  have small : k < 2 ^ 32 := (G.store.perm perm_front).size_le
  rw [size] at large
  rw [User.allocate, size]
  split
  · rename_i whole
    subst whole
    exact ⟨_, _, p, rfl, G.takeWhole P⟩
  · rename_i rest
    obtain ⟨j, rfl⟩ : ∃ j, k = j + nu := ⟨k - nu, by omega⟩
    have len : ((s.setSize p j).hdr p).size = j := by
      rw [setSize_size, if_pos rfl, uint_of_lt (by omega)]
    rw [Nat.add_sub_cancel]
    dsimp only
    rw [len]
    exact ⟨_, _, p + HEADER * j, rfl, G.takeEnd P (by omega) pos⟩

end Good

end Xv6.User
