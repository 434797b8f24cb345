import Xv6.Log.Model

/-!
# What the log is for

The header block written by `write_head` reads back as the list it was written from. The
history of a run is read off its observations alone: the contents given to `log_write`
since the last commit, and the disk as the committed transactions leave it. A disk is
recoverable for given home contents when replaying its header's blocks produces them.
-/

namespace Xv6.Log

/-! ## The header round trip -/

theorem num_putBlocks_of_lt (bs : List Nat) {d : Block} {i k o : Nat}
    (ho : o + k ≤ 4 * (i + 1)) : (putBlocks d i bs).num k o = d.num k o := by
  induction bs generalizing d i with
  | nil => rfl
  | cons b bs ih =>
    rw [putBlocks, ih (by omega)]
    exact Bytes.Buffer.num_putNum_disjoint (Or.inl ho)

theorem num_putBlocks_getElem (bs : List Nat) {d : Block} {i j : Nat}
    (fits : 4 * (i + bs.length + 1) ≤ BSIZE) (word : ∀ b ∈ bs, b < 2 ^ 32)
    (hj : j < bs.length) : (putBlocks d i bs).num 4 (4 * (i + j + 1)) = bs[j] := by
  induction bs generalizing d i j with
  | nil => simp at hj
  | cons b bs ih =>
    simp only [List.length_cons] at fits hj
    rw [putBlocks]
    cases j with
    | zero =>
      rw [num_putBlocks_of_lt bs (by omega)]
      exact Bytes.Buffer.num_putNum_same (by omega) (word b List.mem_cons_self)
    | succ j =>
      have := ih (d := d.putNum 4 (4 * (i + 1)) b) (i := i + 1) (j := j) (by omega)
        (fun c hc => word c (List.mem_cons_of_mem b hc)) (by omega)
      rw [show i + (j + 1) + 1 = i + 1 + j + 1 by omega]
      simpa only [List.getElem_cons_succ] using this

theorem headN_putHead {d : Block} {lh : List Nat} (short : lh.length ≤ LOGSIZE) :
    headN (putHead d lh) = lh.length := by
  have hL := LOGSIZE_eq
  have hB := BSIZE_eq
  have hn : (putHead d lh).num 4 0 = lh.length := by
    rw [putHead, num_putBlocks_of_lt lh (by omega)]
    exact Bytes.Buffer.num_putNum_same (by omega) (by omega)
  rw [headN, hn, if_pos (by omega)]

theorem getHead_putHead {d : Block} {lh : List Nat} (short : lh.length ≤ LOGSIZE)
    (word : ∀ b ∈ lh, b < 2 ^ 32) : getHead (putHead d lh) = lh := by
  apply List.ext_getElem
  · simp [getHead, headN_putHead short]
  · intro j hj hl
    have hL := LOGSIZE_eq
    have hB := BSIZE_eq
    have := num_putBlocks_getElem lh (d := d.putNum 4 0 lh.length) (i := 0) (by omega) word hl
    simpa [getHead, putHead] using this

theorem length_getHead (d : Block) : (getHead d).length = headN d := by
  simp [getHead]

theorem getHead_eq_nil {d : Block} (h : headN d = 0) : getHead d = [] := by
  simp [getHead, h]

/-! ## Histories -/

/-- Apply the contents of a list of `log_write`s in order; the last one wins. -/
def overlay (base : Nat → Block) : List (Nat × Block) → Nat → Block
  | [] => base
  | (b, d) :: ws => overlay (Function.update base b d) ws

theorem overlay_append (base : Nat → Block) (ws vs : List (Nat × Block)) :
    overlay base (ws ++ vs) = overlay (overlay base ws) vs := by
  induction ws generalizing base with
  | nil => rfl
  | cons w ws ih => exact ih _

theorem overlay_snoc (base : Nat → Block) (ws : List (Nat × Block)) (b : Nat) (d : Block) :
    overlay base (ws ++ [(b, d)]) = Function.update (overlay base ws) b d :=
  overlay_append base ws [(b, d)]

theorem overlay_of_not_mem {base : Nat → Block} {ws : List (Nat × Block)} {b : Nat}
    (h : b ∉ ws.map Prod.fst) : overlay base ws b = base b := by
  induction ws generalizing base with
  | nil => rfl
  | cons w ws ih =>
    simp only [List.map_cons, List.mem_cons, not_or] at h
    rw [overlay, ih h.2, Function.update_of_ne h.1]

/-- The disk as the committed transactions leave it, and the open transaction. -/
structure Hist where
  base : Nat → Block
  txn : List (Nat × Block)

/-- A transaction commits when a header with a positive count reaches the disk. -/
def Hist.step (start : Nat) (H : Hist) : Ev → Hist
  | .stored _ _ | .unpinned _ => H
  | .logged b d => { H with txn := H.txn ++ [(b, d)] }
  | .written b d => if b = start ∧ 0 < headN d then ⟨overlay H.base H.txn, []⟩ else H
  | .crash => { H with txn := [] }

/-- The history of a run from a disk, given what was observed. -/
def hist (start : Nat) (disk : Nat → Block) (tr : List Ev) : Hist :=
  tr.foldl (Hist.step start) ⟨disk, []⟩

@[simp] theorem hist_nil (start : Nat) (disk : Nat → Block) : hist start disk [] = ⟨disk, []⟩ := rfl

@[simp] theorem hist_append_nil (start : Nat) (disk : Nat → Block) (tr : List Ev) :
    hist start disk (tr ++ []) = hist start disk tr := by rw [List.append_nil]

@[simp] theorem hist_snoc (start : Nat) (disk : Nat → Block) (tr : List Ev) (e : Ev) :
    hist start disk (tr ++ [e]) = (hist start disk tr).step start e := by
  simp [hist, List.foldl_append]

/-! ## Home blocks and recoverable disks -/

/-- Block `b` is the header block or one of the `size - 1` log blocks behind it. -/
def InLog (start size b : Nat) : Prop := b = start ∨ start < b ∧ b < start + size

/-- Block `b` (a `uint`) lies outside the log area. -/
def Home (start size b : Nat) : Prop := ¬ InLog start size b ∧ b < 2 ^ 32

/-- A list of blocks that fits into the log: `lh.block[0..n)` of a transaction. -/
structure Fits (start size : Nat) (tx : List Nat) : Prop where
  nodup : tx.Nodup
  home : ∀ b ∈ tx, Home start size b
  short : tx.length ≤ LOGSIZE
  room : tx.length < size ∨ tx = []

theorem Fits.nil {start size : Nat} : Fits start size [] :=
  ⟨List.nodup_nil, by simp, by simp, Or.inr rfl⟩

theorem Fits.inLog {start size : Nat} {tx : List Nat} (h : Fits start size tx) {j : Nat}
    (hj : j < tx.length) : InLog start size (start + j + 1) := by
  rcases h.room with hr | rfl
  · exact Or.inr ⟨by omega, by omega⟩
  · simp at hj

/-- Log block `j` holds the wanted contents of the `j`-th block of the list. -/
def Copied (start : Nat) (disk target : Nat → Block) (tx : List Nat) (n : Nat) : Prop :=
  ∀ j b, j < n → tx[j]? = some b → disk (start + j + 1) = target b

/-- Replaying the header of `disk` gives the home contents `base`. -/
structure Recoverable (start size : Nat) (disk base : Nat → Block) : Prop where
  fits : Fits start size (getHead (disk start))
  copied : Copied start disk base (getHead (disk start)) (getHead (disk start)).length
  home : ∀ b, ¬ InLog start size b → b ∉ getHead (disk start) → disk b = base b

end Xv6.Log
