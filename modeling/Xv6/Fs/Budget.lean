import Xv6.Fs.Blocks
import Xv6.Fs.Syscall
import Xv6.Interleave.Rules

/-!
# The blocks a write logs

`filewrite` writes a few blocks at a time, to avoid exceeding the maximum log transaction size:
i-node, indirect block, allocation blocks, and 2 blocks of slop for non-aligned writes. Here the
blocks that one call of `writei` gives to `log_write` are counted, while other processes run too.
-/

namespace Xv6.Fs

open Interleave Log

variable {ι α : Type}

/-! ## What the call finds -/

/-- A block of the free map. -/
def Superblock.InMap (sb : Superblock) (b : Nat) : Prop := ∃ x, x < sb.size ∧ sb.bblock x = b

/-- Block 0, which no pointer can name, and the blocks of the free map. -/
def Superblock.Reserved (sb : Superblock) (b : Nat) : Prop := b = 0 ∨ sb.InMap b

/-- The contents `d` of block `b` do not show a reserved block as free. -/
def Marks (sb : Superblock) (b : Nat) (d : Block) : Prop :=
  ∀ x, x < sb.size → sb.bblock x = b → sb.Reserved x → bit d (x % BPB) = true

/-- There is a block for every byte below the size. -/
def NoHoles (c : Nat → Block) (din : Dinode) : Prop :=
  ∀ bn, bn * BSIZE < din.size → slotPtr c din (slotOf bn) ≠ 0

/-- A file without holes that does not have a block of the free map as its own, and a free map in
which no reserved block is free. -/
structure Writable (sb : Superblock) (c : Nat → Block) (din : Dinode) : Prop where
  length : din.addrs.length = NDIRECT + 1
  noHoles : NoHoles c din
  apart : ∀ u, u < NDIRECT → ¬ sb.InMap (din.addrs.getD u 0)
  marks : ∀ b, Marks sb b (c b)

/-- What other processes may do while process `i` has locked the inode `ip`. -/
structure Meanwhile (sb : Superblock) (ip : IPtr) (i : ι) (s s' : KSt ι) : Prop where
  hold : ∀ h b, s'.hold h = some (i, b) ↔ s.hold h = some (i, b)
  din : (s'.aux.inode ip).din = (s.aux.inode ip).din
  noHoles : NoHoles s.cache (s.aux.inode ip).din → NoHoles s'.cache (s.aux.inode ip).din
  marks : (∀ b, Marks sb b (s.cache b)) → ∀ b, Marks sb b (s'.cache b)

/-- The block number passed to `log_write`. -/
def passed {X : Type} : Act X → KSt ι → List Nat
  | .logWrite h, s => ((s.hold h).map Prod.snd).toList
  | _, _ => []

/-- One process writes to the inode `ip`; between any two of its actions the others move. -/
def writing [DecidableEq ι] (sb : Superblock) (ip : IPtr) :
    Sys ι (Act (FsAct ι)) (Res FsRes) (KSt ι) Nat where
  exec i a s r s' := ∃ s₁, Meanwhile sb ip i s s₁ ∧ Log.exec fsExec i a s₁ r s'
  obs := fun _ a s => passed a s
  env := fun _ _ _ _ _ => False
  calls := fun _ _ _ => False

/-! ## Accounts -/

/-- What the writing process knows: the inode, the buffers it holds, the blocks it has logged, whether
the free map still is as `Marks` says and whether nothing has been written yet. -/
structure Tally where
  din : Dinode
  held : Handle → Option Nat
  logged : Finset Nat
  marks : Prop
  whole : Prop

def Tally.setData (sb : Superblock) (l : Tally) (h : Handle) (d : Block) : Tally :=
  { l with marks := l.marks ∧ ∀ b, l.held h = some b → Marks sb b d, whole := False }

def Tally.logWrite (l : Tally) (h : Handle) : Tally :=
  match l.held h with
  | some b => { l with logged := insert b l.logged }
  | none => l

def Tally.setDin (l : Tally) (din : Dinode) : Tally := { l with din := din, whole := False }

/-- The entries of the indirect block for the bytes below the size. -/
def Filled (din : Dinode) (d : Block) : Prop :=
  ∀ bn, NDIRECT ≤ bn → bn * BSIZE < din.size → d.num 4 (4 * (bn - NDIRECT)) ≠ 0

/-- A block may be logged while that makes no more than `MAXOPBLOCKS`. -/
def accounts (sb : Superblock) (ip : IPtr) : Rules (Act (FsAct ι)) (Res FsRes) Tally where
  pre
    | .bread _, _ | .getData _, _ | .brelse _, _ | .panic _, _ => True
    | .setData h _, l => ∃ b, l.held h = some b
    | .logWrite h, l => ∃ b, l.held h = some b ∧ (insert b l.logged).card ≤ MAXOPBLOCKS
    | .aux (.info q), _ | .aux (.setDin q _), _ => q = ip
    | .aux (.copyin _ _ _ _), _ => True
    | _, _ => False
  tells
    | .bread _, l, r => ∀ h, r = some h → l.held h = none
    | .getData h, l, r => ∀ b, l.held h = some b →
        (l.marks → Marks sb b r) ∧ (l.whole → b = l.din.ind → Filled l.din r)
    | .aux (.info _), l, r => r.din = l.din
    | _, _, _ => True
  next
    | .bread b, l, r =>
      match r with
      | some h => { l with held := Function.update l.held h (some b) }
      | none => l
    | .setData h d, l, _ => l.setData sb h d
    | .brelse h, l, _ => { l with held := Function.update l.held h none }
    | .logWrite h, l, _ => l.logWrite h
    | .aux (.setDin _ din), l, _ => l.setDin din
    | _, l, _ => l

/-- The code keeps to the budget, and `Q` holds at its end. -/
def Spends (sb : Superblock) (ip : IPtr) (p : FsCode ι α) (l : Tally) (Q : α → Tally → Prop) : Prop :=
  (accounts sb ip).wp (p.interp impl) l Q

/-! ## The accounts are right -/

/-- What the tally says is so. -/
structure Agrees (sb : Superblock) (ip : IPtr) (i : ι) (o : List Nat) (s : KSt ι) (l : Tally) : Prop where
  din : (s.aux.inode ip).din = l.din
  held : ∀ h b, l.held h = some b → s.hold h = some (i, b)
  logged : o.toFinset = l.logged
  few : l.logged.card ≤ MAXOPBLOCKS
  marks : l.marks → ∀ b, Marks sb b (s.cache b)
  whole : l.whole → NoHoles s.cache l.din

theorem Agrees.meanwhile {sb : Superblock} {ip : IPtr} {i : ι} {o : List Nat} {s s' : KSt ι} {l : Tally}
    (A : Agrees sb ip i o s l) (others : Meanwhile sb ip i s s') : Agrees sb ip i o s' l where
  din := others.din.trans A.din
  held h b known := (others.hold h b).mpr (A.held h b known)
  logged := A.logged
  few := A.few
  marks known := others.marks (A.marks known)
  whole known := by
    have kept := others.noHoles
    rw [A.din] at kept
    exact kept (A.whole known)

theorem NoHoles.filled {c : Nat → Block} {din : Dinode} (h : NoHoles c din) : Filled din (c din.ind) := by
  intro bn far below
  have entry := h bn below
  rw [slotOf_indirect far, slotPtr, if_neg (by omega)] at entry
  split at entry
  · rwa [Nat.add_sub_cancel_left] at entry
  · exact absurd rfl entry

section Sound

variable [DecidableEq ι] {sb : Superblock} {ip : IPtr} {i : ι} {o : List Nat} {s s' : KSt ι} {l : Tally}

theorem Agrees.exec (A : Agrees sb ip i o s l) {a : Act (FsAct ι)} {r : Res FsRes a}
    (ok : (accounts sb ip).pre a l) (step : Log.exec fsExec i a s r s') :
    (accounts sb ip).tells a l r ∧ Agrees sb ip i (o ++ passed a s) s' ((accounts sb ip).next a l r) := by
  cases a with
  | bread b =>
    simp only [passed, List.append_nil]
    cases r with
    | none =>
      obtain rfl : s' = s := step
      exact ⟨fun h e => (nomatch e), A⟩
    | some h =>
      obtain ⟨free, -, rfl⟩ := step
      constructor
      · rintro h' e
        obtain rfl := Option.some.inj e
        by_contra known
        obtain ⟨b', known⟩ := Option.ne_none_iff_exists'.mp known
        rw [A.held h b' known] at free
        cases free
      · refine ⟨A.din, ?_, A.logged, A.few, A.marks, A.whole⟩
        intro h' b' known
        by_cases e : h' = h
        · subst e
          simp only [accounts, Function.update_self, Option.some.injEq] at known ⊢
          rw [known]
        · simp only [accounts, Function.update_of_ne e] at known ⊢
          exact A.held h' b' known
  | getData h =>
    obtain ⟨b, held, rfl, rfl⟩ := step
    simp only [passed, List.append_nil]
    refine ⟨?_, A⟩
    intro b' known
    obtain rfl : b = b' := by
      have := A.held h b' known
      rw [held] at this
      cases this
      rfl
    refine ⟨fun m => A.marks m b, ?_⟩
    rintro w rfl
    exact (A.whole w).filled
  | setData h d =>
    obtain ⟨b, known⟩ := ok
    obtain ⟨b', held, rfl⟩ := step
    obtain rfl : b' = b := by
      have := A.held h b known
      rw [held] at this
      cases this
      rfl
    simp only [passed, List.append_nil]
    refine ⟨trivial, A.din, A.held, A.logged, A.few, ?_, False.elim⟩
    rintro ⟨before, here⟩ x
    by_cases e : x = b'
    · subst e
      dsimp only
      rw [Function.update_self]
      exact here x known
    · dsimp only
      rw [Function.update_of_ne e]
      exact A.marks before x
  | brelse h =>
    obtain ⟨b, held, rfl⟩ := step
    simp only [passed, List.append_nil]
    refine ⟨trivial, A.din, ?_, A.logged, A.few, A.marks, A.whole⟩
    intro h' b' known
    by_cases e : h' = h
    · subst e
      simp [accounts] at known
    · simp only [accounts, Function.update_of_ne e] at known ⊢
      exact A.held h' b' known
  | logWrite h =>
    obtain ⟨b, known, few⟩ := ok
    have held := A.held h b known
    have next : (accounts sb ip).next (.logWrite h) l r = { l with logged := insert b l.logged } := by
      simp only [accounts, Tally.logWrite, known]
    have seen : passed (.logWrite h : Act (FsAct ι)) s = [b] := by simp [passed, held]
    rw [next, seen]
    have same : s'.aux = s.aux ∧ s'.hold = s.hold ∧ s'.cache = s.cache := by
      obtain ⟨b', -, step⟩ := step
      split at step
      · obtain ⟨-, rfl⟩ := step
        exact ⟨rfl, rfl, rfl⟩
      · obtain ⟨-, rfl⟩ := step
        exact ⟨rfl, rfl, rfl⟩
    refine ⟨trivial, ?_, ?_, ?_, few, ?_, ?_⟩
    · rw [same.1]
      exact A.din
    · rw [same.2.1]
      exact A.held
    · rw [List.toFinset_append, A.logged]
      ext x
      simp
    · rw [same.2.2]
      exact A.marks
    · rw [same.2.2]
      exact A.whole
  | panic msg => exact step.elim
  | aux x =>
    obtain ⟨t, step, rfl⟩ := step
    simp only [passed, List.append_nil]
    cases x with
    | info q =>
      obtain rfl : q = ip := ok
      obtain ⟨rfl, rfl⟩ := step
      exact ⟨A.din, A⟩
    | setDin q din =>
      obtain rfl : q = ip := ok
      obtain rfl : t = _ := step
      refine ⟨trivial, ?_, A.held, A.logged, A.few, A.marks, False.elim⟩
      simp [FsSt.setInode, accounts, Tally.setDin]
    | copyin bp o srcva len =>
      obtain ⟨-, rfl⟩ := step
      exact ⟨trivial, A⟩
    | _ => exact False.elim ok
  | _ => exact False.elim ok

/-- The actions of the writing process move the tally as the accounts say. -/
theorem Agrees.step (A : Agrees sb ip i o s l) {a : Act (FsAct ι)} {r : Res FsRes a}
    (ok : (accounts sb ip).pre a l) (step : (writing sb ip).exec i a s r s') :
    (accounts sb ip).tells a l r ∧
      Agrees sb ip i (o ++ (writing sb ip).obs i a s) s' ((accounts sb ip).next a l r) := by
  obtain ⟨s₁, others, step⟩ := step
  have seen : passed a s = passed a s₁ := by
    cases a with
    | logWrite h =>
      obtain ⟨b, known, -⟩ := ok
      rw [passed, passed, A.held h b known, (others.hold h b).mpr (A.held h b known)]
    | _ => rfl
  simp only [writing, seen]
  exact (A.meanwhile others).exec ok step

end Sound

/-! ## Rules for the code -/

section Rules

variable {β : Type} {sb : Superblock} {ip : IPtr} {l : Tally} {Q : α → Tally → Prop}

theorem spends_ret {x : α} (h : Q x l) : Spends sb ip (pure x : FsCode ι α) l Q := h

theorem spends_bind {p : FsCode ι β} {f : β → FsCode ι α} {P : β → Tally → Prop}
    (first : Spends sb ip p l P) (rest : ∀ x m, P x m → Spends sb ip (f x) m Q) : Spends sb ip (p >>= f) l Q := by
  rw [Spends, Prog.interp_bind]
  exact Rules.wp_seq first rest

theorem spends_ite {c : Prop} [Decidable c] {p q : FsCode ι α} (pos : c → Spends sb ip p l Q)
    (neg : ¬ c → Spends sb ip q l Q) : Spends sb ip (if c then p else q) l Q := by
  split
  · exact pos ‹_›
  · exact neg ‹_›

theorem spends_panic {msg : String} : Spends sb ip (panic msg : FsCode ι α) l Q :=
  ⟨trivial, fun r => Empty.elim r⟩

theorem spends_bread {b : Nat} {f : Handle → FsCode ι α}
    (rest : ∀ h, l.held h = none → Spends sb ip (f h) { l with held := Function.update l.held h (some b) } Q) :
    Spends sb ip (bread b >>= f) l Q := by
  refine ⟨trivial, ?_⟩
  rintro r m ⟨told, rfl⟩
  cases r with
  | none => exact ⟨trivial, fun r => Empty.elim r⟩
  | some h => exact rest h (told h rfl)

theorem spends_getData {h : Handle} {b : Nat} {f : Block → FsCode ι α} (held : l.held h = some b)
    (rest : ∀ d, (l.marks → Marks sb b d) → (l.whole → b = l.din.ind → Filled l.din d) →
      Spends sb ip (f d) l Q) :
    Spends sb ip (getData h >>= f) l Q := by
  refine ⟨trivial, ?_⟩
  rintro d m ⟨told, rfl⟩
  exact rest d (told b held).1 (told b held).2

theorem spends_setData {h : Handle} {b : Nat} {d : Block} {f : Unit → FsCode ι α} (held : l.held h = some b)
    (rest : Spends sb ip (f ()) (l.setData sb h d) Q) : Spends sb ip (setData h d >>= f) l Q := by
  refine ⟨⟨b, held⟩, ?_⟩
  rintro ⟨⟩ m ⟨-, rfl⟩
  exact rest

theorem spends_logWrite {h : Handle} {b : Nat} {f : Unit → FsCode ι α} (held : l.held h = some b)
    (few : (insert b l.logged).card ≤ MAXOPBLOCKS)
    (rest : Spends sb ip (f ()) { l with logged := insert b l.logged } Q) :
    Spends sb ip (logWrite h >>= f) l Q := by
  refine ⟨⟨b, held, few⟩, ?_⟩
  rintro r m ⟨-, rfl⟩
  have next : (accounts sb ip).next (.logWrite h : Act (FsAct ι)) l r =
      { l with logged := insert b l.logged } := by
    simp only [accounts, Tally.logWrite, held]
  rw [next]
  cases r with
  | error msg => exact ⟨trivial, fun r => Empty.elim r⟩
  | ok => exact rest

theorem spends_brelse {h : Handle} {f : Unit → FsCode ι α}
    (rest : Spends sb ip (f ()) { l with held := Function.update l.held h none } Q) :
    Spends sb ip (brelse h >>= f) l Q := by
  refine ⟨trivial, ?_⟩
  rintro ⟨⟩ m ⟨-, rfl⟩
  exact rest

theorem spends_info {f : Info → FsCode ι α} (rest : ∀ n : Info, n.din = l.din → Spends sb ip (f n) l Q) :
    Spends sb ip (info ip >>= f) l Q := by
  refine ⟨rfl, ?_⟩
  rintro n m ⟨told, rfl⟩
  exact rest n told

theorem spends_setDin {din : Dinode} {f : Unit → FsCode ι α} (rest : Spends sb ip (f ()) (l.setDin din) Q) :
    Spends sb ip (setDin ip din >>= f) l Q := by
  refine ⟨rfl, ?_⟩
  rintro ⟨⟩ m ⟨-, rfl⟩
  exact rest

theorem spends_copyinBuf {h : Handle} {o va len : Nat} {f : List UInt8 × Bool → FsCode ι α}
    (rest : ∀ r, Spends sb ip (f r) l Q) : Spends sb ip (copyinBuf h o va len >>= f) l Q := by
  refine ⟨trivial, ?_⟩
  rintro r m ⟨-, rfl⟩
  exact rest r

theorem Spends.wp {p : FsCode ι α} (h : Spends sb ip p l Q) : (accounts sb ip).wp (p.interp impl) l Q := h

end Rules

-- From here on only the rules are used; the code must not be executed to see what `Spends` says.
attribute [irreducible] Spends

/-! ## Blocks -/

section Code

variable {sb : Superblock} {ip : IPtr} {l m : Tally} {b : Nat}

theorem Marks.of_not_inMap {d : Block} (h : ¬ sb.InMap b) : Marks sb b d :=
  fun x small e _ => absurd ⟨x, small, e⟩ h

theorem Tally.marks_setData {h : Handle} {d : Block} (held : l.held h = some b) (marks : l.marks)
    (here : Marks sb b d) : (l.setData sb h d).marks := by
  refine ⟨marks, fun b' known => ?_⟩
  obtain rfl : b = b' := by simpa [held] using known
  exact here

theorem bzero_spends (few : (insert b l.logged).card ≤ MAXOPBLOCKS) :
    Spends sb ip (bzero b : FsCode ι Unit) l fun _ m => m.din = l.din ∧ m.held = l.held ∧
      m.logged = insert b l.logged ∧ (l.marks → ¬ sb.InMap b → m.marks) := by
  refine spends_bread fun h fresh => ?_
  have held : Function.update l.held h (some b) h = some b := Function.update_self ..
  refine spends_setData held ?_
  refine spends_logWrite held few ?_
  refine spends_brelse (f := pure) (spends_ret ⟨rfl, ?_, rfl, ?_⟩)
  · simp [Tally.setData, ← fresh]
  · intro marks apart
    exact Tally.marks_setData (l := { l with held := Function.update l.held h (some b) }) held marks
      (.of_not_inMap apart)

/-- A block has been allocated: it has been logged, with the block of the free map that has its bit. -/
structure Allocated (sb : Superblock) (l : Tally) (b : Nat) (m : Tally) : Prop where
  din : m.din = l.din
  held : m.held = l.held
  sub : l.logged ⊆ m.logged
  mem : b ∈ m.logged
  card : m.logged.card ≤ l.logged.card + 2
  marks : l.marks → m.marks ∧ ¬ sb.Reserved b

/-- A bit that is set in a block of the free map leaves the others as they are. -/
theorem Marks.setBit {d : Block} {bi : Nat} (h : Marks sb b d) (small : bi < BPB) : Marks sb b (setBit d bi) := by
  intro x lt e reserved
  rw [bit_setBit small, h x lt e reserved, Bool.or_true]

/-- A bit that is clear is not that of a reserved block. -/
theorem Marks.not_reserved {d : Block} {k bi : Nat} (h : Marks sb (sb.bblock (k * BPB)) d) (inside : bi < BPB)
    (small : k * BPB + bi < sb.size) (clear : bit d bi = false) : ¬ sb.Reserved (k * BPB + bi) := by
  intro reserved
  have mod : (k * BPB + bi) % BPB = bi := by rw [Nat.mul_add_mod_self_right, Nat.mod_eq_of_lt inside]
  have same : sb.bblock (k * BPB + bi) = sb.bblock (k * BPB) := by
    simp only [Superblock.bblock, BPB, BSIZE] at inside ⊢
    omega
  have set := h _ small same reserved
  rw [mod, clear] at set
  cases set

theorem ballocFrom_spends (few : l.logged.card + 2 ≤ MAXOPBLOCKS) (n k : Nat) :
    Spends sb ip (ballocFrom sb n (k * BPB) : FsCode ι Nat) l (Allocated sb l) := by
  induction n generalizing k with
  | zero => exact spends_panic
  | succ n ih =>
    rw [ballocFrom]
    split
    case isFalse => exact spends_panic
    refine spends_bread fun h fresh => ?_
    have held : Function.update l.held h (some (sb.bblock (k * BPB))) h = some (sb.bblock (k * BPB)) :=
      Function.update_self ..
    refine spends_getData held fun d marked _ => ?_
    have back : Function.update (Function.update l.held h (some (sb.bblock (k * BPB)))) h none = l.held := by
      simp [← fresh]
    split
    · rename_i bi found
      obtain ⟨-, inside, small, clear⟩ := freeBit_some found
      rw [Nat.zero_add] at inside
      refine spends_setData held ?_
      have one := Finset.card_insert_le (sb.bblock (k * BPB)) l.logged
      have two := Finset.card_insert_le (k * BPB + bi) (insert (sb.bblock (k * BPB)) l.logged)
      refine spends_logWrite held (le_trans one (by omega)) ?_
      refine spends_brelse ?_
      refine spends_bind (bzero_spends (le_trans two (by omega))) ?_
      rintro - m ⟨din, keeps, logged, marks⟩
      refine spends_ret ⟨din, keeps.trans back, ?_, ?_, ?_, ?_⟩
      · rw [logged]
        exact (Finset.subset_insert _ _).trans (Finset.subset_insert _ _)
      · rw [logged]
        exact Finset.mem_insert_self _ _
      · rw [logged]
        exact le_trans two (by omega)
      · intro before
        have free := (marked before).not_reserved inside small clear
        refine ⟨marks ?_ fun inMap => free (Or.inr inMap), free⟩
        exact Tally.marks_setData (l := { l with held := Function.update l.held h (some (sb.bblock (k * BPB))) })
          held before ((marked before).setBit inside)
    · refine spends_brelse ?_
      rw [back, ← Nat.succ_mul]
      exact ih (k + 1)

theorem balloc_spends (few : l.logged.card + 2 ≤ MAXOPBLOCKS) :
    Spends sb ip (balloc sb : FsCode ι Nat) l (Allocated sb l) := by
  have zero : 0 * BPB = 0 := Nat.zero_mul _
  rw [balloc, ← zero]
  exact ballocFrom_spends few (sb.size / BPB + 1) 0

/-! ## `bmap` -/

/-- The blocks logged, with two more while the indirect block is not known to be one of them. -/
def need (K : Finset Nat) (din : Dinode) : Nat := K.card + 2 * indCost K din

theorem need_insert {K : Finset Nat} {din : Dinode} : need (insert b K) din ≤ need K din + 1 := by
  have card := Finset.card_insert_le b K
  have cost : indCost (insert b K) din ≤ indCost K din := indCost_mono (Finset.subset_insert b K) rfl
  simp only [need]
  omega

/-- While there is no indirect block, the free map is as it should be. -/
structure Tally.Ready (sb : Superblock) (l : Tally) : Prop where
  length : l.din.addrs.length = NDIRECT + 1
  apart : l.din.ind = 0 → ∀ u, u < NDIRECT → ¬ sb.InMap (l.din.addrs.getD u 0)
  marks : l.din.ind = 0 → l.marks

/-- `bmap` has found or made the block `b`; logging it, too, costs no more than `c`. -/
structure Charged (sb : Superblock) (l : Tally) (c b : Nat) (m : Tally) : Prop where
  ready : m.Ready sb
  held : m.held = l.held
  cost : need (insert b m.logged) m.din ≤ need l.logged l.din + c
  apart : m.din.ind = 0 → ¬ sb.InMap b

theorem Allocated.need_le (A : Allocated sb l b m) {din : Dinode} (same : din.ind = l.din.ind) :
    need m.logged din ≤ need l.logged l.din + 2 := by
  have card := A.card
  have cost : indCost m.logged din ≤ indCost l.logged l.din := indCost_mono A.sub same
  simp only [need]
  omega

theorem card_le_need (K : Finset Nat) (din : Dinode) : K.card ≤ need K din := Nat.le_add_right _ _

/-- A direct block is recorded in the inode. -/
theorem Allocated.charged (A : Allocated sb l b m) (R : l.Ready sb) {bn : Nat} (direct : bn < NDIRECT) :
    Charged sb l 2 b (m.setDin { l.din with addrs := l.din.addrs.set bn b }) := by
  have ind : Dinode.ind { l.din with addrs := l.din.addrs.set bn b } = l.din.ind := by
    simp only [Dinode.ind, List.getD_eq_getElem?_getD, List.getElem?_set_ne (Nat.ne_of_lt direct)]
  have free : l.din.ind = 0 → ¬ sb.InMap b := fun none inMap => (A.marks (R.marks none)).2 (Or.inr inMap)
  refine ⟨⟨?_, ?_, ?_⟩, A.held, ?_, ?_⟩
  · simpa [Tally.setDin] using R.length
  · intro none u hu
    replace none : l.din.ind = 0 := ind.symm.trans none
    by_cases e : u = bn
    · subst e
      have : (l.din.addrs.set u b).getD u 0 = b := by
        rw [List.getD_eq_getElem?_getD, List.getElem?_set_self (by rw [R.length]; omega), Option.getD_some]
      simpa only [Tally.setDin, this] using free none
    · have : (l.din.addrs.set bn b).getD u 0 = l.din.addrs.getD u 0 := by
        simp [List.getD_eq_getElem?_getD, List.getElem?_set_ne (Ne.symm e)]
      simpa only [Tally.setDin, this] using R.apart none u hu
  · intro none
    exact (A.marks (R.marks (ind.symm.trans none))).1
  · simp only [Tally.setDin, Finset.insert_eq_self.mpr A.mem]
    exact A.need_le ind
  · intro none
    exact free (ind.symm.trans none)

/-- The indirect block is there, and if it had to be allocated, it has been logged. -/
theorem indirectBlock_spends (R : l.Ready sb) (few : need l.logged l.din ≤ MAXOPBLOCKS) :
    Spends sb ip (indirectBlock sb ip l.din : FsCode ι Nat) l fun b m => b ≠ 0 ∧ m.din.ind = b ∧
      m.din.addrs.length = NDIRECT + 1 ∧ m.held = l.held ∧ need m.logged m.din ≤ need l.logged l.din := by
  rw [indirectBlock]
  split
  · rename_i none
    have cost : indCost l.logged l.din = 1 := if_neg fun h => h.1 none
    refine spends_bind (balloc_spends (by simp only [need] at few; omega)) fun b m A => ?_
    refine spends_setDin (spends_ret ?_)
    have free := (A.marks (R.marks none)).2
    have set : b ≠ 0 := fun e => free (Or.inl e)
    have ind : Dinode.ind { l.din with addrs := l.din.addrs.set NDIRECT b } = b := by simp [Dinode.ind, R.length]
    refine ⟨set, ind, by simpa [Tally.setDin] using R.length, A.held, ?_⟩
    have paid := indCost_zero (K := m.logged) (ind.trans_ne set) (by rw [ind]; exact A.mem)
    have card := A.card
    simp only [need, Tally.setDin, paid, cost]
    omega
  · rename_i some
    exact spends_ret ⟨some, rfl, R.length, rfl, le_rfl⟩

/-- With a block for an entry of the indirect block, the indirect block is logged. -/
theorem Allocated.need_entry (A : Allocated sb l b m) (set : l.din.ind ≠ 0) :
    need (insert l.din.ind m.logged) l.din ≤ need l.logged l.din + 2 := by
  have paid := indCost_zero (K := insert l.din.ind m.logged) set (Finset.mem_insert_self _ _)
  have card := A.card
  by_cases mem : l.din.ind ∈ l.logged
  · rw [need, paid, Finset.insert_eq_self.mpr (A.sub mem), need]
    omega
  · have more := Finset.card_insert_le l.din.ind m.logged
    have cost : indCost l.logged l.din = 1 := if_neg fun h => mem h.2
    rw [need, paid, need, cost]
    omega

theorem bmap_spends (R : l.Ready sb) (few : need l.logged l.din + 2 ≤ MAXOPBLOCKS) (bn : Nat) :
    Spends sb ip (bmap sb ip bn : FsCode ι Nat) l (Charged sb l 2) := by
  refine spends_info fun n same => ?_
  rw [same]
  have card := card_le_need l.logged l.din
  refine spends_ite (fun direct => ?_) fun _ => spends_ite (fun _ => ?_) fun _ => spends_panic
  · refine spends_ite (fun _ => ?_) fun _ => ?_
    · refine spends_bind (balloc_spends (by omega)) fun b m A => ?_
      exact spends_setDin (spends_ret (A.charged R direct))
    · exact spends_ret ⟨R, rfl, need_insert.trans (Nat.le_succ _), fun none => R.apart none bn direct⟩
  refine spends_bind (indirectBlock_spends R (by omega)) ?_
  rintro ind m ⟨set, rfl, length, held, cost⟩
  have card' := card_le_need m.logged m.din
  refine spends_bread fun h fresh => ?_
  have known : Function.update m.held h (some m.din.ind) h = some m.din.ind := Function.update_self ..
  have back : Function.update (Function.update m.held h (some m.din.ind)) h none = m.held := by simp [← fresh]
  refine spends_getData known fun a _ _ => ?_
  have room : m.logged.card + 2 ≤ MAXOPBLOCKS := by omega
  refine spends_ite (fun _ => ?_) fun _ => ?_
  · refine spends_bind (balloc_spends room) fun b m' A => ?_
    have here : m'.held h = some m.din.ind := by rw [A.held]; exact known
    have all : need (insert m.din.ind m'.logged) m.din ≤ need m.logged m.din + 2 := A.need_entry set
    refine spends_setData here ?_
    refine spends_logWrite here ?_ ?_
    · exact (card_le_need _ m.din).trans (all.trans (by omega))
    refine spends_brelse (spends_ret ⟨⟨?_, ?_, ?_⟩, ?_, ?_, ?_⟩)
    · exact (congrArg (fun d => d.addrs.length) A.din).trans length
    · exact fun none => absurd ((congrArg Dinode.ind A.din).symm.trans none) set
    · exact fun none => absurd ((congrArg Dinode.ind A.din).symm.trans none) set
    · exact (congrArg (fun k => Function.update k h none) A.held).trans (back.trans held)
    · have mem : b ∈ insert m.din.ind m'.logged := Finset.mem_insert_of_mem A.mem
      simp only [Tally.setData, Finset.insert_eq_self.mpr mem, A.din]
      exact all.trans (by omega)
    · exact fun none => absurd ((congrArg Dinode.ind A.din).symm.trans none) set
  · refine spends_brelse (spends_ret ⟨⟨length, ?_, ?_⟩, back.trans held, ?_, ?_⟩)
    · exact fun none => absurd none set
    · exact fun none => absurd none set
    · exact need_insert.trans (Nat.succ_le_succ (cost.trans (Nat.le_succ _)))
    · exact fun none => absurd none set

/-- What the inode itself says of a file without holes. -/
structure Dinode.Full (din : Dinode) : Prop where
  direct : ∀ bn, bn < NDIRECT → bn * BSIZE < din.size → din.addrs.getD bn 0 ≠ 0
  indirect : NDIRECT * BSIZE < din.size → din.ind ≠ 0

theorem NoHoles.full {c : Nat → Block} {din : Dinode} (h : NoHoles c din) : din.Full where
  direct bn near below := by
    have entry := h bn below
    rwa [slotOf_direct near, slotPtr_direct (Nat.le_of_lt near)] at entry
  indirect below none := by
    have entry := h NDIRECT below
    rw [slotOf_indirect le_rfl, slotPtr, if_neg (by omega), if_neg fun x => x.2 none] at entry
    exact entry rfl

/-- Nothing is allocated for a block below the size. -/
theorem bmap_below (R : l.Ready sb) (full : l.din.Full) (whole : l.whole) {bn : Nat}
    (below : bn * BSIZE < l.din.size) : Spends sb ip (bmap sb ip bn : FsCode ι Nat) l (Charged sb l 1) := by
  refine spends_info fun n same => ?_
  rw [same]
  split
  case isTrue near =>
    rw [if_neg (full.direct bn near below)]
    exact spends_ret ⟨R, rfl, need_insert, fun none => R.apart none bn near⟩
  case isFalse far =>
    have set : l.din.addrs.getD NDIRECT 0 ≠ 0 :=
      full.indirect ((Nat.mul_le_mul_right BSIZE (Nat.le_of_not_lt far)).trans_lt below)
    split
    case isFalse => exact spends_panic
    rw [indirectBlock, if_neg set, Prog.pure_bind]
    refine spends_bread fun h fresh => ?_
    refine spends_getData (Function.update_self ..) fun a _ filled => ?_
    rw [if_neg (filled whole rfl bn (Nat.le_of_not_lt far) below)]
    refine spends_brelse (spends_ret ⟨⟨R.length, R.apart, R.marks⟩, ?_, need_insert, ?_⟩)
    case refine_2 => exact fun none => absurd none set
    simp [← fresh]

/-! ## `writei` -/

/-- A block of the file has been written; it has been logged unless the copy failed. -/
structure Written (sb : Superblock) (l : Tally) (h : Handle) (b : Nat) (ok : Bool) (m : Tally) : Prop where
  din : m.din = l.din
  held : m.held = Function.update l.held h none
  logged : m.logged = if ok then insert b l.logged else l.logged
  marks : l.marks → ¬ sb.InMap b → m.marks

theorem storeBytes_spends {h : Handle} {o : Nat} {bytes : List UInt8} (held : l.held h = some b) :
    Spends sb ip (storeBytes h o bytes : FsCode ι Unit) l fun _ m => m.din = l.din ∧ m.held = l.held ∧
      m.logged = l.logged ∧ (l.marks → ¬ sb.InMap b → m.marks) := by
  rw [storeBytes, onlyIf]
  split
  · refine spends_getData held fun d _ _ => ?_
    refine spends_setData (f := pure) held (spends_ret ⟨rfl, rfl, rfl, fun marks apart => ?_⟩)
    exact Tally.marks_setData held marks (.of_not_inMap apart)
  · exact spends_ret ⟨rfl, rfl, rfl, fun marks _ => marks⟩

theorem writeBlock_spends {h : Handle} {src : Src} {tot o n : Nat} (held : l.held h = some b)
    (few : (insert b l.logged).card ≤ MAXOPBLOCKS) :
    Spends sb ip (writeBlock h src tot o n : FsCode ι Bool) l (Written sb l h b) := by
  cases src with
  | kernel bytes =>
    refine spends_bind (storeBytes_spends held) ?_
    rintro - m ⟨din, same, logged, marks⟩
    refine spends_logWrite (by rw [same]; exact held) (by rw [logged]; exact few) ?_
    refine spends_brelse (spends_ret ⟨din, ?_, ?_, marks⟩)
    · rw [← same]
    · rw [← logged, if_pos rfl]
  | user va =>
    refine spends_copyinBuf fun r => ?_
    refine spends_bind (storeBytes_spends held) ?_
    rintro - m ⟨din, same, logged, marks⟩
    split
    · refine spends_logWrite (by rw [same]; exact held) (by rw [logged]; exact few) ?_
      refine spends_brelse (spends_ret ⟨din, ?_, ?_, marks⟩)
      · rw [← same]
      · rw [← logged, if_pos rfl]
    · refine spends_brelse (spends_ret ⟨din, ?_, logged, marks⟩)
      rw [← same]

/-- Room for so many blocks, and for the inode. -/
structure Tally.Affords (sb : Superblock) (l : Tally) (n : Nat) : Prop where
  ready : l.Ready sb
  room : need l.logged l.din + n + 1 ≤ MAXOPBLOCKS

theorem Tally.Affords.inode {n : Nat} (A : l.Affords sb n) : l.logged.card + 1 ≤ MAXOPBLOCKS := by
  have := card_le_need l.logged l.din
  have := A.room
  omega

/-- The block that `bmap` found has been written, and the rest goes on with what is left. -/
theorem Tally.Affords.written {c n : Nat} {h : Handle} {m' : Tally} (A : l.Affords sb (c + n))
    (C : Charged sb l c b m)
    (W : Written sb { m with held := Function.update m.held h (some b) } h b true m') : m'.Affords sb n := by
  refine ⟨⟨?_, ?_, ?_⟩, ?_⟩
  · rw [W.din]
    exact C.ready.length
  · rw [W.din]
    exact C.ready.apart
  · rw [W.din]
    exact fun none => W.marks (C.ready.marks none) (C.apart none)
  · have room := A.room
    have cost := C.cost
    rw [W.din, W.logged, if_pos rfl]
    dsimp only
    omega

/-- One round of the loop, for a block whose cost is known. -/
theorem round_spends {c n bn tot o k : Nat} {src : Src} {f : Bool → FsCode ι α} {Q : α → Tally → Prop}
    (A : l.Affords sb (c + n)) (find : Spends sb ip (bmap sb ip bn : FsCode ι Nat) l (Charged sb l c))
    (next : ∀ m : Tally, m.Affords sb n → Spends sb ip (f true) m Q)
    (stop : ∀ m : Tally, m.logged.card + 1 ≤ MAXOPBLOCKS → Spends sb ip (f false) m Q) :
    Spends sb ip (do let addr ← bmap sb ip bn; let bp ← bread addr; let ok ← writeBlock bp src tot o k; f ok)
      l Q := by
  refine spends_bind find fun b m C => ?_
  refine spends_bread fun h _ => ?_
  have few : (insert b m.logged).card + 1 ≤ MAXOPBLOCKS := by
    have := card_le_need (insert b m.logged) m.din
    have := C.cost
    have := A.room
    omega
  refine spends_bind (writeBlock_spends (Function.update_self ..) (Nat.le_of_succ_le few)) fun ok m' W => ?_
  cases ok with
  | true => exact next m' (A.written C W)
  | false =>
    refine stop m' ?_
    rw [W.logged, if_neg Bool.false_ne_true]
    exact (Nat.succ_le_succ (Finset.card_le_card (Finset.subset_insert b m.logged))).trans few

/-- The blocks of so many bytes from the start of a block on. -/
def blocksFor (n : Nat) : Nat := (n + (BSIZE - 1)) / BSIZE

/-- From the start of a block on, every block may have to be allocated. -/
theorem writeiFrom_aligned {src : Src} {n k tot off : Nat} (aligned : off % BSIZE = 0 ∨ n ≤ tot)
    (affords : l.Affords sb (2 * blocksFor (n - tot))) :
    Spends sb ip (writeiFrom sb ip src n k tot off : FsCode ι (Nat × Nat)) l fun _ m => m.logged.card + 1 ≤ MAXOPBLOCKS := by
  induction k generalizing tot off l with
  | zero => exact spends_ret affords.inode
  | succ k ih =>
    rw [writeiFrom]
    split
    case isFalse => exact spends_ret affords.inode
    rename_i more
    replace aligned : off % BSIZE = 0 := aligned.resolve_right (Nat.not_le_of_lt more)
    have fewer : 2 * blocksFor (n - tot) = 2 + 2 * blocksFor (n - (tot + min (n - tot) BSIZE)) := by
      simp only [blocksFor, BSIZE]
      omega
    rw [fewer] at affords
    have room := affords.room
    rw [aligned, Nat.sub_zero]
    refine round_spends affords (bmap_spends affords.ready (by omega) _) (fun m left => ih ?_ left)
      fun m few => spends_ret few
    simp only [addU, BSIZE] at aligned ⊢
    omega

/-- The tally of a call before it has done anything. -/
def Tally.start (din : Dinode) : Tally := ⟨din, fun _ => none, ∅, True, True⟩

theorem Writable.affords {c : Nat → Block} {din : Dinode} (W : Writable sb c din) {n : Nat} (few : n ≤ 7) :
    (Tally.start din).Affords sb n where
  ready := ⟨W.length, fun _ => W.apart, fun _ => trivial⟩
  room := by
    have cost : indCost (Tally.start din).logged din = 1 := if_neg fun h => absurd h.2 (Finset.notMem_empty _)
    simp only [need, Tally.start] at cost ⊢
    rw [cost, Finset.card_empty]
    simp only [MAXOPBLOCKS]
    omega

/-- A write that does not begin at the start of a block begins in one that the file has. -/
theorem writeiFrom_spends {c : Nat → Block} {din : Dinode} (W : Writable sb c din) {src : Src} {n off : Nat}
    (small : n ≤ 3 * BSIZE) (inside : off ≤ din.size) :
    Spends sb ip (writeiFrom sb ip src n n 0 off : FsCode ι (Nat × Nat)) (Tally.start din)
      fun _ m => m.logged.card + 1 ≤ MAXOPBLOCKS := by
  by_cases aligned : off % BSIZE = 0 ∨ n ≤ 0
  · refine writeiFrom_aligned aligned (W.affords ?_)
    simp only [blocksFor, BSIZE] at small ⊢
    omega
  obtain ⟨unaligned, pos⟩ := not_or.mp aligned
  obtain ⟨k, rfl⟩ : ∃ k, n = k + 1 := ⟨n - 1, by omega⟩
  rw [writeiFrom, if_pos (Nat.succ_pos k)]
  have below : off / BSIZE * BSIZE < din.size := by
    simp only [BSIZE] at unaligned ⊢
    omega
  have affords : (Tally.start din).Affords sb
      (1 + 2 * blocksFor (k + 1 - (0 + min (k + 1 - 0) (BSIZE - off % BSIZE)))) := by
    refine W.affords ?_
    simp only [blocksFor, BSIZE] at small unaligned ⊢
    omega
  refine round_spends affords (bmap_below affords.ready W.noHoles.full trivial below)
    (fun m left => writeiFrom_aligned ?_ left) fun m few => spends_ret few
  simp only [addU, BSIZE] at unaligned ⊢
  omega

theorem iupdate_spends (few : l.logged.card + 1 ≤ MAXOPBLOCKS) :
    Spends sb ip (iupdate sb ip : FsCode ι Unit) l fun _ _ => True := by
  refine spends_info fun n _ => ?_
  refine spends_bread fun h fresh => ?_
  have held : Function.update l.held h (some (sb.iblock n.inum)) h = some (sb.iblock n.inum) :=
    Function.update_self ..
  refine spends_getData held fun d _ _ => ?_
  refine spends_setData held ?_
  refine spends_logWrite held ((Finset.card_insert_le _ _).trans few) ?_
  exact spends_brelse (f := pure) (spends_ret trivial)

theorem writei_spends {c : Nat → Block} {din : Dinode} (W : Writable sb c din) {src : Src} {n off : Nat}
    (small : n ≤ 3 * BSIZE) :
    Spends sb ip (writei sb ip src off n : FsCode ι Int) (Tally.start din) fun _ _ => True := by
  refine spends_info fun f same => ?_
  split
  case isTrue => exact spends_ret trivial
  rename_i inside
  split
  case isTrue => exact spends_ret trivial
  rw [same, not_or, Nat.not_lt] at inside
  refine spends_bind (writeiFrom_spends W small inside.1) fun r m few => ?_
  refine spends_info fun f _ => ?_
  have done : ∀ m : Tally, m.logged.card + 1 ≤ MAXOPBLOCKS →
      Spends sb ip (do iupdate sb ip; return toInt r.1 : FsCode ι Int) m fun _ _ => True :=
    fun m few => spends_bind (iupdate_spends few) fun _ _ _ => spends_ret trivial
  rw [onlyIf]
  split
  · exact spends_setDin (done _ few)
  · exact done m few

end Code

/-! ## The budget -/

section Budget

variable [DecidableEq ι] {sb : Superblock} {ip : IPtr} {i : ι} {s s' : KSt ι} {o : List Nat}

omit [DecidableEq ι] in
theorem Writable.agrees (W : Writable sb s.cache (s.aux.inode ip).din) :
    Agrees sb ip i [] s (Tally.start (s.aux.inode ip).din) where
  din := rfl
  held _ _ known := nomatch known
  logged := rfl
  few := Nat.zero_le _
  marks _ := W.marks
  whole _ := W.noHoles

end Budget

/-- A disk of 64 blocks: block 1 is the free map, block 2 has the inodes, block 3 is the only one of a
file of one byte. -/
def oneByteSb : Superblock :=
  { size := 64, ninodes := 16, nlog := 0, logstart := 0, inodestart := 2, bmapstart := 1 }

theorem NINODE_pos : 0 < NINODE := by decide

def oneByte : KSt Unit where
  disk := fun _ => Bytes.Buffer.zero
  cache := fun b => if b = 1 then Bytes.Buffer.zero.put 0 [15] else Bytes.Buffer.zero
  hold := fun _ => none
  pin := fun _ => 0
  log := { start := 0, size := 0, outstanding := 1, committing := false, lh := [] }
  up := true
  aux :=
    { inode := fun _ =>
        { dev := 1, inum := 1, ref := 1, lock := some (), valid := true
          din :=
            { Dinode.zero with
              type := T_FILE, nlink := 1, size := 1, addrs := 3 :: List.replicate NDIRECT 0 } }
      file := fun _ =>
        { type := .none, ref := 0, readable := false, writable := false, pipe := 0,
          ip := ⟨0, NINODE_pos⟩, off := 0, major := 0 }
      proc := fun _ => { state := .running, cwd := none, ofile := fun _ => none, mem := fun _ => none } }

theorem oneByteSb_inMap {b : Nat} (h : oneByteSb.InMap b) : b = 1 := by
  obtain ⟨x, small, rfl⟩ := h
  simp only [oneByteSb, Superblock.bblock, BPB, BSIZE] at small ⊢
  omega

theorem oneByte_writable : Writable oneByteSb oneByte.cache (oneByte.aux.inode 0).din where
  length := rfl
  noHoles := by
    intro bn below
    obtain rfl : bn = 0 := by
      simp only [oneByte, BSIZE] at below
      omega
    decide
  apart := by
    intro u hu inMap
    have other : ∀ u, u < NDIRECT → (oneByte.aux.inode 0).din.addrs.getD u 0 ≠ 1 := by decide
    exact other u hu (oneByteSb_inMap inMap)
  marks := by
    rintro b x small rfl reserved
    rcases reserved with rfl | inMap
    · decide
    · obtain rfl := oneByteSb_inMap inMap
      decide

end Xv6.Fs
