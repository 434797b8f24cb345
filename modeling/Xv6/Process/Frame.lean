import Xv6.Process.Ghost

/-!
# What an action leaves alone

Every action changes one part of the machine (what the CPUs execute on, the locks, the CPUs, the
process table) and a few fields of the ghost state of the thread that performs it.
-/

namespace Xv6.Process

open Interleave

variable {n : Nat} {κ : Type} [DecidableEq κ] {initproc : Fin n}

def Act.switches : Act n → Bool
  | .resume _ | .suspend => true
  | _ => false

def Act.locks : Act n → Bool
  | .lock _ | .unlock _ => true
  | _ => false

def Act.cpus : Act n → Bool
  | .pushOff | .popOff | .intrOn | .intrOff | .setIntena _ | .setCpuProc _ => true
  | _ => false

def Act.procs : Act n → Bool
  | .setState _ _ | .setRunning _ | .setRunnable _ | .setChan _ _ | .setKilled _ | .setXstate _ _ => true
  | .setParent _ _ | .setPriority _ _ | .wakeOne _ _ | .killOne _ _ | .priorityOne _ _ _ => true
  | .claim _ | .freeproc _ => true
  | _ => false

section Exec

variable {c : κ} {a : Act n} {s s' : St n κ} {r : Res a}

theorem cpuExec_running (h : cpuExec c a s r s') (k : a.switches = false) : s'.running = s.running := by
  cases a with
  | killOne | priorityOne =>
    obtain ⟨-, -, rfl⟩ := h
    split <;> rfl
  | setContext | panic => exact h.elim
  | _ => first | (cases k; done) | (obtain ⟨-, rfl⟩ := h; rfl)

theorem cpuExec_lock (h : cpuExec c a s r s') (k : a.locks = false) : s'.lock = s.lock := by
  cases a with
  | killOne | priorityOne =>
    obtain ⟨-, -, rfl⟩ := h
    split <;> rfl
  | setContext | panic => exact h.elim
  | _ => first | (cases k; done) | (obtain ⟨-, rfl⟩ := h; rfl)

theorem cpuExec_cpu (h : cpuExec c a s r s') (k : a.cpus = false) : s'.cpu = s.cpu := by
  cases a with
  | killOne | priorityOne =>
    obtain ⟨-, -, rfl⟩ := h
    split <;> rfl
  | setContext | panic => exact h.elim
  | _ => first | (cases k; done) | (obtain ⟨-, rfl⟩ := h; rfl)

theorem cpuExec_proc (h : cpuExec c a s r s') (k : a.procs = false) : s'.proc = s.proc := by
  cases a with
  | killOne | priorityOne => cases k
  | setContext | panic => exact h.elim
  | _ => first | (cases k; done) | (obtain ⟨-, rfl⟩ := h; rfl)

theorem cpuExec_pc (h : cpuExec c a s r s') (k : ∀ p lbl, a ≠ .goto p lbl) : s'.pc = s.pc := by
  cases a with
  | killOne | priorityOne =>
    obtain ⟨-, -, rfl⟩ := h
    split <;> rfl
  | setContext | panic => exact h.elim
  | goto p lbl => exact absurd rfl (k p lbl)
  | _ => obtain ⟨-, rfl⟩ := h; rfl

end Exec

section Next

variable (l : Gh n κ) (a : Act n) (r : Res a)

@[simp] theorem next_me : (next initproc a l r).me = l.me := by
  cases a with
  | setParent | wakeOne => simp only [next]; split <;> rfl
  | _ => rfl

variable {a}

theorem next_held (k : a.locks = false) : (next initproc a l r).held = l.held := by
  cases a with
  | setParent | wakeOne => simp only [next]; split <;> rfl
  | _ => first | (cases k; done) | rfl

/-- Actions that turn interrupts off and on. -/
def Act.depth : Act n → Bool
  | .pushOff | .popOff => true
  | _ => false

theorem next_off (k : a.depth = false) : (next initproc a l r).off = l.off := by
  cases a with
  | setParent | wakeOne => simp only [next]; split <;> rfl
  | _ => first | (cases k; done) | rfl

/-- Actions of schedulers. -/
def Act.picks : Act n → Bool
  | .setCpuProc _ | .resume _ | .setRunning _ => true
  | _ => false

theorem next_slot (k : a.picks = false) : (next initproc a l r).slot = l.slot := by
  cases a with
  | setParent | wakeOne => simp only [next]; split <;> rfl
  | _ => first | (cases k; done) | rfl

theorem next_pick (k : a.picks = false) : (next initproc a l r).pick = l.pick := by
  cases a with
  | setParent | wakeOne => simp only [next]; split <;> rfl
  | _ => first | (cases k; done) | rfl

/-- Actions on a process's own state. -/
def Act.owns : Act n → Bool
  | .setState _ _ | .suspend => true
  | _ => false

theorem next_own (k : a.owns = false) : (next initproc a l r).own = l.own := by
  cases a with
  | setParent | wakeOne => simp only [next]; split <;> rfl
  | _ => first | (cases k; done) | rfl

/-- Actions that look at another process or are done with it. -/
def Act.looks : Act n → Bool
  | .read _ | .unlock _ | .setRunning _ | .setRunnable _ | .claim _ | .freeproc _ => true
  | _ => false

theorem next_seen (k : a.looks = false) : (next initproc a l r).seen = l.seen := by
  cases a with
  | setParent | wakeOne => simp only [next]; split <;> rfl
  | _ => first | (cases k; done) | rfl

/-- Actions of `fork` and `wait` on a child. -/
def Act.begets : Act n → Bool
  | .setRunnable _ | .claim _ | .freeproc _ | .setContext _ => true
  | _ => false

theorem next_child (k : a.begets = false) : (next initproc a l r).child = l.child := by
  cases a with
  | setParent | wakeOne => simp only [next]; split <;> rfl
  | _ => first | (cases k; done) | rfl

theorem next_chan (k : ∀ p chan, a ≠ .setChan p chan) : (next initproc a l r).chan = l.chan := by
  cases a with
  | setParent | wakeOne => simp only [next]; split <;> rfl
  | setChan p chan => exact absurd rfl (k p chan)
  | _ => rfl

theorem next_pc (k : ∀ p lbl, a ≠ .goto p lbl) : (next initproc a l r).pc = l.pc := by
  cases a with
  | setParent | wakeOne => simp only [next]; split <;> rfl
  | goto p lbl => exact absurd rfl (k p lbl)
  | _ => rfl

/-- Actions by which `wait` reports a child. -/
def Act.reports : Act n → Bool
  | .freeproc _ | .waited _ _ _ => true
  | _ => false

theorem next_reaped (k : a.reports = false) : (next initproc a l r).reaped = l.reaped := by
  cases a with
  | setParent | wakeOne => simp only [next]; split <;> rfl
  | _ => first | (cases k; done) | rfl

theorem next_newpid (k : ∀ p, a ≠ .read p) : (next initproc a l r).newpid = l.newpid := by
  cases a with
  | setParent | wakeOne => simp only [next]; split <;> rfl
  | read p => exact absurd rfl (k p)
  | _ => rfl

theorem next_adopted (k : ∀ p i, a ≠ .info p i) : (next initproc a l r).adopted = l.adopted := by
  cases a with
  | setParent | wakeOne => simp only [next]; split <;> rfl
  | info p i => exact absurd rfl (k p i)
  | _ => rfl

/-- Actions that change what is known about the family. -/
def Act.kin : Act n → Bool
  | .lock _ | .unlock _ | .suspend | .read _ | .setState _ _ | .setParent _ _ => true
  | .wakeOne _ _ | .freeproc _ => true
  | _ => false

theorem next_fam (k : a.kin = false) : (next initproc a l r).fam = l.fam := by
  cases a with
  | setParent | wakeOne => cases k
  | _ => first | (cases k; done) | rfl

end Next

/-- A field of the ghost state that one thread does not change. -/
theorem field_update {ι β Λ : Type} [DecidableEq ι] {f : Λ → β} {L : ι → Λ} {i : ι} {l : Λ}
    (same : f l = f (L i)) (t : ι) : f (Function.update L i l t) = f (L t) := by
  by_cases h : t = i
  · subst h
    rw [Function.update_self, same]
  · rw [Function.update_of_ne h]

end Xv6.Process
