import Xv6.Interleave.Own
import Xv6.Log.History

/-!
# Ghost state of the log

What a client may do (`cpre`, `cpost`): it modifies a block only inside an operation, only
outside the log area, and passes every modified buffer to `log_write` before it releases
it. The process that commits, and the first process while it recovers, own the log area;
their ghost state records how far the disk is.
-/

namespace Xv6.Log

open Interleave

/-- A client's view: whether it is between `begin_op` and `end_op` (or how many times), and
the buffers it has locked, each with its block and a mark. -/
structure View (O M : Type) where
  inOp : O
  held : Handle → Option (Nat × M)

section View

variable {O M : Type}

def View.idle [Inhabited O] : View O M := ⟨default, fun _ => none⟩

def View.set (v : View O M) (h : Handle) (x : Option (Nat × M)) : View O M :=
  { v with held := Function.update v.held h x }

@[simp] theorem View.set_inOp (v : View O M) (h : Handle) (x : Option (Nat × M)) :
    (v.set h x).inOp = v.inOp := rfl

@[simp] theorem View.set_held (v : View O M) (h : Handle) (x : Option (Nat × M)) :
    (v.set h x).held = Function.update v.held h x := rfl

end View

section Discipline

variable {X : Type} {RX : X → Type} (start size : Nat)

/-- The mark says that the buffer is modified and not yet logged. -/
def cpre : OpAct X → View Bool Bool → Prop
  | .bread _, _ => True
  | .getData h, v => ∃ b m, v.held h = some (b, m)
  | .setData h _, v => v.inOp = true ∧ ∃ b m, v.held h = some (b, m) ∧ Home start size b
  | .logWrite h, v => v.inOp = true ∧ ∃ b m, v.held h = some (b, m) ∧ Home start size b
  | .bwrite _, _ => False
  | .brelse h, v => ∃ b, v.held h = some (b, false)
  | .beginOp, v => v.inOp = false
  | .endOp, v => v.inOp = true ∧ ∀ h b, v.held h ≠ some (b, true)
  | .panic _, _ => True
  | .aux _, _ => True

def cpost : (a : OpAct X) → View Bool Bool → OpRes RX a → View Bool Bool → Prop
  | .bread b, v, h, v' => v.held h = none ∧ v' = v.set h (some (b, false))
  | .getData _, v, _, v' => v' = v
  | .setData h _, v, _, v' => ∃ b m, v.held h = some (b, m) ∧ v' = v.set h (some (b, true))
  | .logWrite h, v, _, v' => ∃ b m, v.held h = some (b, m) ∧ v' = v.set h (some (b, false))
  | .bwrite _, v, _, v' => v' = v
  | .brelse h, v, _, v' => v' = v.set h none
  | .beginOp, v, _, v' => v' = { v with inOp := true }
  | .endOp, v, _, v' => v' = { v with inOp := false }
  | .panic _, _, _, _ => True
  | .aux _, v, _, v' => v' = v

/-- The clients the log is written for. -/
def Disciplined (c : Client RX) : Prop :=
  c.wp (cpre start size) cpost View.idle (fun _ v => v = View.idle)

end Discipline

/-- Where the owner of the log area is: before `read_head` of a recovery, in `write_log`,
in `install_trans` with `t` blocks home and `u` of them unpinned, before the header is
erased, after it. -/
inductive Phase where
  | booting
  | logging
  | installing (t u : Nat)
  | erasing
  | done

/-- Ghost state of the owner of the log area: the blocks of the transaction, the home
contents it leads to, the log area on the disk, and the buffer it has modified and not yet
written. -/
structure Own where
  recov : Bool
  phase : Phase
  tx : List Nat
  target : Nat → Block
  ldisk : Nat → Block
  dirty : Option (Nat × Block)

/-- `log.lh` while the log area is owned. -/
def Own.lh (g : Own) : List Nat :=
  match g.phase with
  | .logging | .installing _ _ => g.tx
  | .booting | .erasing | .done => []

def Own.pinned (g : Own) : List Nat :=
  if g.recov then [] else
    match g.phase with
    | .logging => g.tx
    | .installing _ u => g.tx.drop u
    | .booting | .erasing | .done => []

/-- Which block writes the owner may make, and with which contents. -/
def Own.WriteOk (start size : Nat) (g : Own) (b : Nat) (d : Block) : Prop :=
  match g.phase with
  | .logging => if b = start then g.tx ≠ [] ∧ getHead d = g.tx ∧
      Copied start g.ldisk g.target g.tx g.tx.length else InLog start size b
  | .installing t _ => g.tx[t]? = some b
  | .erasing => b = start ∧ headN d = 0
  | .booting | .done => False

/-- How a block write moves the owner. -/
def Own.write (start : Nat) (g : Own) (b : Nat) (d : Block) : Own :=
  match g.phase with
  | .logging => { g with ldisk := Function.update g.ldisk b d, dirty := none,
                         phase := if b = start then .installing 0 0 else .logging }
  | .installing t u => { g with dirty := none, phase := .installing (t + 1) u }
  | .erasing => { g with ldisk := Function.update g.ldisk b d, dirty := none, phase := .done }
  | .booting | .done => g

/-- A thread's ghost state. `live` says that the thread has been started since the last
power failure. -/
structure Loc where
  live : Bool
  view : View Bool Bool
  own : Option Own

def Loc.set (l : Loc) (h : Handle) (x : Option (Nat × Bool)) : Loc :=
  { l with view := l.view.set h x }

@[simp] theorem Loc.set_live (l : Loc) (h : Handle) (x : Option (Nat × Bool)) :
    (l.set h x).live = l.live := rfl

@[simp] theorem Loc.set_own (l : Loc) (h : Handle) (x : Option (Nat × Bool)) :
    (l.set h x).own = l.own := rfl

@[simp] theorem Loc.set_view (l : Loc) (h : Handle) (x : Option (Nat × Bool)) :
    (l.set h x).view = l.view.set h x := rfl

section Rules

variable {X : Type} {RX : X → Type} (start size : Nat)

def actPre : Act X → Loc → Prop
  | .bread _, _ => True
  | .getData h, l => ∃ b m, l.view.held h = some (b, m)
  | .setData h d, l => ∃ b m, l.view.held h = some (b, m) ∧
      match l.own with
      | none => l.view.inOp = true ∧ Home start size b
      | some g => g.dirty = none ∧ (InLog start size b ∨
          (∃ t u, g.phase = .installing t u) ∧ Home start size b ∧ d = g.target b)
  | .bwrite h, l => ∃ g b d, l.own = some g ∧ l.view.held h = some (b, true) ∧
      g.dirty = some (b, d) ∧ g.WriteOk start size b d
  | .bunpin h, l => ∃ g t u b m, l.own = some g ∧ g.recov = false ∧ g.phase = .installing t u ∧
      u < t ∧ l.view.held h = some (b, m) ∧ g.tx[u]? = some b
  | .brelse h, l => ∃ b, l.view.held h = some (b, false)
  | .beginOp, l => l.own = none ∧ l.view.inOp = false
  | .endOpDec, l => l.own = none ∧ l.view.inOp = true ∧ ∀ h b, l.view.held h ≠ some (b, true)
  | .endOpDone, l => ∃ g, l.own = some g ∧ g.recov = false ∧ g.dirty = none ∧
      (g.phase = .done ∨ g.phase = .logging ∧ g.tx = [])
  | .logWrite h, l => l.own = none ∧ l.view.inOp = true ∧
      ∃ b m, l.view.held h = some (b, m) ∧ Home start size b
  | .getLog, _ => True
  | .setLh lh, l => ∃ g, l.own = some g ∧ g.dirty = none ∧
      ((g.phase = .booting ∧ lh = g.tx) ∨
        ∃ u, g.phase = .installing g.tx.length u ∧ (g.recov = true ∨ u = g.tx.length) ∧ lh = [])
  | .ready, l => ∃ g, l.own = some g ∧ g.recov = true ∧ g.dirty = none ∧ g.phase = .done
  | .panic _, _ => True
  | .aux _, _ => True

def actPost : (a : Act X) → Loc → Res RX a → Loc → Prop
  | .bread b, l, r, l' =>
    match r with
    | none => l' = l
    | some h => l.view.held h = none ∧ l' = l.set h (some (b, false))
  | .getData h, l, d, l' => l' = l ∧ ∀ g b m, l.own = some g → l.view.held h = some (b, m) →
      g.dirty = none → (InLog start size b → d = g.ldisk b) ∧
        (¬ InLog start size b → g.phase = .logging → d = g.target b)
  | .setData h d, l, _, l' => ∃ b m, l.view.held h = some (b, m) ∧
      l' = { l.set h (some (b, true)) with own := l.own.map fun g => { g with dirty := some (b, d) } }
  | .bwrite h, l, _, l' => ∃ g b d, l.own = some g ∧ l.view.held h = some (b, true) ∧
      g.dirty = some (b, d) ∧ l' = { l.set h (some (b, false)) with own := some (g.write start b d) }
  | .bunpin _, l, _, l' => ∃ g t u, l.own = some g ∧ g.phase = .installing t u ∧
      l' = { l with own := some { g with phase := .installing t (u + 1) } }
  | .brelse h, l, _, l' => l' = l.set h none
  | .beginOp, l, _, l' => l' = { l with view := { l.view with inOp := true } }
  | .endOpDec, l, r, l' =>
    match r with
    | .error _ => False
    | .ok false => l' = { l with view := { l.view with inOp := false } }
    | .ok true => ∃ g : Own, g.recov = false ∧ g.phase = .logging ∧ g.dirty = none ∧
        Fits start size g.tx ∧ l' = { l with view := { l.view with inOp := false }, own := some g }
  | .endOpDone, l, _, l' => l' = { l with own := none }
  | .logWrite h, l, r, l' =>
    match r with
    | .error _ => l' = l
    | .ok () => ∃ b m, l.view.held h = some (b, m) ∧ l' = l.set h (some (b, false))
  | .getLog, l, r, l' => l' = l ∧ r.start = start ∧ ∀ g, l.own = some g → r.lh = g.lh
  | .setLh _, l, _, l' => ∃ g, l.own = some g ∧
      ((g.phase = .booting ∧ l' = { l with own := some { g with phase := .installing 0 0 } }) ∨
        ∃ t u, g.phase = .installing t u ∧ l' = { l with own := some { g with phase := .erasing } })
  | .ready, l, _, l' => l' = { l with own := none }
  | .panic _, _, _, _ => True
  | .aux _, l, _, l' => l' = l

def pre (a : Act X) (l : Loc) : Prop := l.live = true ∧ actPre start size a l

/-- What a thread has when its program is over. -/
def Loc.Fin (l : Loc) : Prop := l.view = View.idle ∧ l.own = none

end Rules

/-- Somebody is in an operation when `log_write` succeeds. -/
theorem LogVar.logWrite_outstanding {log : LogVar} {b : Nat} {r : LogVar × Bool}
    (hw : log.logWrite b = .ok r) : 1 ≤ log.outstanding := by
  unfold LogVar.logWrite at hw
  split at hw
  · cases hw
  · split at hw
    · cases hw
    · omega

/-- What a successful `log_write` has checked and done. -/
theorem LogVar.logWrite_ok {log log' : LogVar} {fresh : Bool} {b : Nat}
    (hw : log.logWrite b = .ok (log', fresh)) :
    log.lh.length < LOGSIZE ∧ log.lh.length + 1 < log.size ∧
      ((b ∈ log.lh ∧ log' = log ∧ fresh = false) ∨
        (b ∉ log.lh ∧ log' = { log with lh := log.lh ++ [b] } ∧ fresh = true)) := by
  unfold LogVar.logWrite at hw
  split at hw
  · cases hw
  · rename_i hroom
    push Not at hroom
    refine ⟨hroom.1, by omega, ?_⟩
    split at hw
    · cases hw
    · split at hw
      · rename_i hmem
        cases hw
        exact Or.inl ⟨hmem, rfl, rfl⟩
      · rename_i hmem
        cases hw
        exact Or.inr ⟨hmem, rfl, rfl⟩

/-! ## Marks of the whole pool -/

section Marks

variable {ι M : Type} [DecidableEq ι] {held : ι → Handle → Option (Nat × M)} {i : ι} {h : Handle}
variable {b : Nat} {m d : M} {x : Option (Nat × M)}

/-- Somebody holds block `b` with mark `d`. -/
def Marked {ι M : Type} (d : M) (held : ι → Handle → Option (Nat × M)) (b : Nat) : Prop :=
  ∃ i h, held i h = some (b, d)

/-- Marks `d` after one handle of one thread got another mark. -/
theorem clean_of_set (new : ∀ c, x ≠ some (c, d)) {j : ι} {h' : Handle} {c : Nat}
    (hc : Function.update held i (Function.update (held i) h x) j h' = some (c, d)) :
    held j h' = some (c, d) := by
  by_cases hj : j = i
  · subst hj
    by_cases hh : h' = h
    · subst hh
      simp [new c] at hc
    · simpa [hh] using hc
  · simpa [hj] using hc

theorem set_of_clean (old : ∀ c, held i h ≠ some (c, d)) {j : ι} {h' : Handle} {c : Nat}
    (hc : held j h' = some (c, d)) :
    Function.update held i (Function.update (held i) h x) j h' = some (c, d) := by
  by_cases hj : j = i
  · subst hj
    have hh : h' ≠ h := by
      rintro rfl
      exact old c hc
    simpa [hh] using hc
  · simpa [hj] using hc

theorem marked_set_clean (old : ∀ c, held i h ≠ some (c, d)) (new : ∀ c, x ≠ some (c, d)) :
    Marked d (Function.update held i (Function.update (held i) h x)) b ↔ Marked d held b :=
  ⟨fun ⟨j, h', hb⟩ => ⟨j, h', clean_of_set new hb⟩, fun ⟨j, h', hb⟩ => ⟨j, h', set_of_clean old hb⟩⟩

theorem marked_set_other {c : Nat} (hb : held i h = some (b, m)) (hcb : c ≠ b)
    (hc : Marked d held c) : Marked d (Function.update held i (Function.update (held i) h x)) c := by
  obtain ⟨j, h', hj⟩ := hc
  refine ⟨j, h', ?_⟩
  by_cases e : j = i
  · subst e
    have hh : h' ≠ h := by
      rintro rfl
      rw [hb] at hj
      simp only [Option.some.injEq, Prod.mk.injEq] at hj
      exact hcb hj.1.symm
    simpa [hh] using hj
  · simpa [e] using hj

/-! No block is locked in two buffers. -/

variable {hold : Handle → Option (ι × Nat)}

omit [DecidableEq ι] in
theorem uniq_acquire (uniq : ∀ h h' i j b, hold h = some (i, b) → hold h' = some (j, b) → h = h')
    (unlocked : ∀ h' j, hold h' ≠ some (j, b)) (h₁ h₂ : Handle) (j k : ι) (c : Nat)
    (h1 : Function.update hold h (some (i, b)) h₁ = some (j, c))
    (h2 : Function.update hold h (some (i, b)) h₂ = some (k, c)) : h₁ = h₂ := by
  by_cases e1 : h₁ = h
  · by_cases e2 : h₂ = h
    · rw [e1, e2]
    · subst e1
      simp only [Function.update_self, Option.some.injEq, Prod.mk.injEq] at h1
      rw [Function.update_of_ne e2, ← h1.2] at h2
      exact absurd h2 (unlocked h₂ k)
  · rw [Function.update_of_ne e1] at h1
    by_cases e2 : h₂ = h
    · subst e2
      simp only [Function.update_self, Option.some.injEq, Prod.mk.injEq] at h2
      rw [← h2.2] at h1
      exact absurd h1 (unlocked h₁ j)
    · rw [Function.update_of_ne e2] at h2
      exact uniq h₁ h₂ j k c h1 h2

omit [DecidableEq ι] in
theorem uniq_release (uniq : ∀ h h' i j b, hold h = some (i, b) → hold h' = some (j, b) → h = h')
    (h₁ h₂ : Handle) (j k : ι) (c : Nat) (h1 : Function.update hold h none h₁ = some (j, c))
    (h2 : Function.update hold h none h₂ = some (k, c)) : h₁ = h₂ := by
  have e1 : h₁ ≠ h := by
    rintro rfl
    simp at h1
  have e2 : h₂ ≠ h := by
    rintro rfl
    simp at h2
  rw [Function.update_of_ne e1] at h1
  rw [Function.update_of_ne e2] at h2
  exact uniq h₁ h₂ j k c h1 h2

end Marks

end Xv6.Log
