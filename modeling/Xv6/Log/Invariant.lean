import Xv6.Log.Verify

/-!
# The invariant of the log

While nobody owns the log area the header on the disk is empty, the home blocks on the
disk are those of the committed transactions, and the cache holds the open transaction on
top of them. While somebody owns it, `PhaseInv` says for every point between two block
writes what is on the disk.
-/

namespace Xv6.Log

open Interleave

/-- What the disk and the cache hold in each phase of a commit or a recovery. -/
def PhaseInv (start size : Nat) (H : Hist) (disk cache : Nat → Block) (g : Own) : Prop :=
  match g.phase with
  | .booting => g.recov = true ∧ H.txn = [] ∧ getHead (g.ldisk start) = g.tx ∧
      Copied start g.ldisk g.target g.tx g.tx.length ∧
      ∀ b, ¬ InLog start size b → g.target b = H.base b ∧ cache b = disk b ∧
        (b ∉ g.tx → disk b = g.target b)
  | .logging => g.recov = false ∧ headN (g.ldisk start) = 0 ∧
      (∀ b, b ∈ g.tx ↔ b ∈ H.txn.map Prod.fst) ∧
      ∀ b, ¬ InLog start size b → disk b = H.base b ∧
        g.target b = overlay H.base H.txn b ∧ cache b = g.target b
  | .installing t u => H.txn = [] ∧ getHead (g.ldisk start) = g.tx ∧
      Copied start g.ldisk g.target g.tx g.tx.length ∧ u ≤ t ∧ t ≤ g.tx.length ∧
      ∀ b, ¬ InLog start size b → g.target b = H.base b ∧
        (b ∉ g.tx.drop t → disk b = g.target b) ∧
        (cache b = g.target b ∨ g.recov = true ∧ cache b = disk b)
  | .erasing => H.txn = [] ∧ getHead (g.ldisk start) = g.tx ∧
      Copied start g.ldisk g.target g.tx g.tx.length ∧
      ∀ b, ¬ InLog start size b → g.target b = H.base b ∧ disk b = g.target b ∧
        cache b = g.target b
  | .done => H.txn = [] ∧ headN (g.ldisk start) = 0 ∧
      ∀ b, ¬ InLog start size b → g.target b = H.base b ∧ disk b = g.target b ∧
        cache b = g.target b

structure OwnInv (start size : Nat) (H : Hist) (disk cache : Nat → Block) (pin : Nat → Nat)
    (lh : List Nat) (g : Own) : Prop where
  ldisk : ∀ b, InLog start size b → disk b = g.ldisk b
  lcache : ∀ b, InLog start size b → (∀ d, g.dirty ≠ some (b, d)) → cache b = g.ldisk b
  dirty : ∀ b d, g.dirty = some (b, d) → cache b = d ∧ (InLog start size b ∨
    (∃ t u, g.phase = .installing t u) ∧ Home start size b ∧ d = g.target b)
  lh : lh = g.lh
  pin : ∀ b, pin b = if b ∈ g.pinned then 1 else 0
  fits : Fits start size g.tx
  phase : PhaseInv start size H disk cache g

structure QuietInv {ι : Type} (start size : Nat) (H : Hist) (disk cache : Nat → Block)
    (pin : Nat → Nat) (log : LogVar) (held : ι → Handle → Option (Nat × Bool)) : Prop where
  idle : log.committing = false
  fits : Fits start size log.lh
  logged : ∀ b, b ∈ log.lh ↔ b ∈ H.txn.map Prod.fst
  head : headN (disk start) = 0
  lcache : ∀ b, InLog start size b → cache b = disk b
  pin : ∀ b, pin b = if b ∈ log.lh then 1 else 0
  disk : ∀ b, ¬ InLog start size b → disk b = H.base b
  cache : ∀ b, ¬ InLog start size b → ¬ Marked true held b → cache b = overlay H.base H.txn b

/-- The invariant over the whole pool; the ghost states of the threads are taken apart
into what they hold, whether they are in an operation, what they own and whether they run. -/
structure Inv {ι T : Type} [Fintype ι] (start size : Nat) (H : Hist) (s : St ι T)
    (held : ι → Handle → Option (Nat × Bool)) (inOp : ι → Bool) (own : ι → Option Own)
    (live : ι → Bool) : Prop where
  geom : s.log.start = start ∧ s.log.size = size
  agrees : Agrees s.hold held
  uniq : ∀ h h' i j b, s.hold h = some (i, b) → s.hold h' = some (j, b) → h = h'
  count : s.log.outstanding = ∑ i, if inOp i then 1 else 0
  marks : ∀ i h b, held i h = some (b, true) → own i = none → inOp i = true ∧ Home start size b
  marksOwn : ∀ i h b g, held i h = some (b, true) → own i = some g → ∃ d, g.dirty = some (b, d)
  holds : ∀ i g b d, own i = some g → g.dirty = some (b, d) → ∃ h, held i h = some (b, true)
  one : ∀ i j g g', own i = some g → own j = some g' → i = j
  noOp : ∀ i g, own i = some g → ∀ j, inOp j = false
  commits : ∀ i g, own i = some g → s.log.committing = !g.recov
  alone : ∀ i g, own i = some g → g.recov = true → ∀ j, j ≠ i → live j = false
  ups : ∀ i g, own i = some g → s.up = !g.recov
  owned : ∀ i g, own i = some g → OwnInv start size H s.disk s.cache s.pin s.log.lh g
  quiet : (∀ i, own i = none) → s.up = true ∧
    QuietInv start size H s.disk s.cache s.pin s.log held

section Facts

variable {ι T : Type} [Fintype ι] {start size : Nat} {H : Hist} {s : St ι T}
variable {held : ι → Handle → Option (Nat × Bool)} {inOp : ι → Bool} {own : ι → Option Own}
variable {live : ι → Bool}

/-- A client that is in an operation excludes an owner of the log area. -/
theorem Inv.no_owner (I : Inv start size H s held inOp own live) {i : ι} (h : inOp i = true) :
    ∀ j, own j = none := by
  intro j
  cases hj : own j with
  | none => rfl
  | some g =>
    have := I.noOp j g hj i
    rw [h] at this
    cases this

/-- Whatever is on the disk, replaying its header gives the committed contents. -/
theorem Inv.recoverable (I : Inv start size H s held inOp own live) :
    Recoverable start size s.disk H.base := by
  by_cases hq : ∀ i, own i = none
  · obtain ⟨-, Q⟩ := I.quiet hq
    have hnil := getHead_eq_nil Q.head
    refine ⟨by rw [hnil]; exact Fits.nil, by rw [hnil]; intro j b _ hb; simp at hb, ?_⟩
    intro b hb _
    exact Q.disk b hb
  · obtain ⟨i, hi⟩ := not_forall.mp hq
    obtain ⟨g, hg⟩ := Option.ne_none_iff_exists'.mp hi
    have O := I.owned i g hg
    have hstart : s.disk start = g.ldisk start := O.ldisk start (Or.inl rfl)
    have hcopied : Copied start g.ldisk g.target g.tx g.tx.length →
        (∀ b, ¬ InLog start size b → g.target b = H.base b) →
        Copied start s.disk H.base g.tx g.tx.length := by
      intro hc ht j b hj hb
      rw [O.ldisk _ (O.fits.inLog hj), hc j b hj hb]
      exact ht b (O.fits.home b (List.mem_of_getElem? hb)).1
    have hp := O.phase
    unfold PhaseInv at hp
    cases hphase : g.phase with
    | booting =>
      rw [hphase] at hp
      obtain ⟨-, -, head, hc, hb⟩ := hp
      refine ⟨?_, ?_, ?_⟩ <;> rw [hstart, head]
      · exact O.fits
      · exact hcopied hc fun b h => (hb b h).1
      · exact fun b h hn => ((hb b h).2.2 hn).trans (hb b h).1
    | logging =>
      rw [hphase] at hp
      obtain ⟨-, head, -, hb⟩ := hp
      refine ⟨?_, ?_, ?_⟩ <;> rw [hstart, getHead_eq_nil head]
      · exact Fits.nil
      · intro j b _ h
        simp at h
      · exact fun b h _ => (hb b h).1
    | installing t u =>
      rw [hphase] at hp
      obtain ⟨-, head, hc, -, -, hb⟩ := hp
      refine ⟨?_, ?_, ?_⟩ <;> rw [hstart, head]
      · exact O.fits
      · exact hcopied hc fun b h => (hb b h).1
      · exact fun b h hn =>
          ((hb b h).2.1 fun hd => hn (List.mem_of_mem_drop hd)).trans (hb b h).1
    | erasing =>
      rw [hphase] at hp
      obtain ⟨-, head, hc, hb⟩ := hp
      refine ⟨?_, ?_, ?_⟩ <;> rw [hstart, head]
      · exact O.fits
      · exact hcopied hc fun b h => (hb b h).1
      · exact fun b h _ => (hb b h).2.1.trans (hb b h).1
    | done =>
      rw [hphase] at hp
      obtain ⟨-, head, hb⟩ := hp
      refine ⟨?_, ?_, ?_⟩ <;> rw [hstart, getHead_eq_nil head]
      · exact Fits.nil
      · intro j b _ h
        simp at h
      · exact fun b h _ => (hb b h).2.1.trans (hb b h).1

end Facts

end Xv6.Log
