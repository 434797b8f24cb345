import Mathlib
import Xv6.Interleave.Engine
import Xv6.Interleave.Rules
import Xv6.Sleep

/-!
# One sleep-lock (`kernel/sleeplock.c`)

Processes call `acquiresleep`, `releasesleep` and `holdingsleep` on one sleep-lock, and `kill`. Every
access to the lock is an action of its own. `pc` is where a process stands: outside, in the loop of
`acquiresleep` with `lk->lk` held, with the lock taken and `acquiresleep` about to return, or between
the return of `acquiresleep` and the moment at which `releasesleep` clears `locked`.
-/

namespace Xv6.Sleeplock

open Interleave

/-- `struct sleeplock`, without the spinlock `lk` and the name. -/
structure Lock where
  locked : Bool
  pid : Int

inductive Label where
  | out
  | waiting
  | taken
  | held
deriving DecidableEq

/-- `acquiresleep` has set `locked`, and `releasesleep` has not cleared it. -/
def Label.Inside (l : Label) : Prop := l = .taken ∨ l = .held

structure St (n : Nat) where
  lock : Lock
  /-- the holder of `lk->lk` -/
  lk : Option (Fin n)
  rest : Fin n → Rest Unit
  killed : Fin n → Bool
  pc : Fin n → Label

inductive Act (n : Nat) where
  | acquire
  | release
  | read
  /-- `sleep(lk, &lk->lk)` up to the release of `lk->lk`. -/
  | sleep
  /-- `lk->locked = 1; lk->pid = myproc()->pid` -/
  | take
  /-- `lk->locked = 0; lk->pid = 0` -/
  | drop
  /-- One round of the loop of `wakeup`. -/
  | wakeOne (p : Fin n)
  | kill (p : Fin n)
  | goto (l : Label)

@[reducible] def Res {n : Nat} : Act n → Type
  | .read => Lock
  | _ => Unit

section Step

variable {n : Nat} (pid : Fin n → Int)

def exec (i : Fin n) (a : Act n) (s : St n) (r : Res a) (s' : St n) : Prop :=
  s.rest i = .awake ∧
  match a, r with
  | .acquire, _ => s.lk = none ∧ s' = { s with lk := some i }
  | .release, _ => s' = { s with lk := none }
  | .read, r => r = s.lock ∧ s' = s
  | .sleep, _ => s' = { s with lk := none, rest := Function.update s.rest i (.falling ()) }
  | .take, _ => s' = { s with lock := ⟨true, pid i⟩, pc := Function.update s.pc i .taken }
  | .drop, _ => s' = { s with lock := ⟨false, 0⟩, pc := Function.update s.pc i .out }
  | .wakeOne p, _ => (s.rest p).Open ∧ s' = { s with rest := Function.update s.rest p ((s.rest p).wake ()) }
  | .kill p, _ => (s.rest p).Open ∧ s' = { s with killed := Function.update s.killed p true
                                                  rest := Function.update s.rest p (s.rest p).rouse }
  | .goto l, _ => s' = { s with pc := Function.update s.pc i l }

end Step

/-! ## Code -/

abbrev Code (n : Nat) (α : Type) : Type := Prog (Act n) Res α

section Code

variable {n : Nat}

def req (a : Act n) : Code n (Res a) := Prog.call a

def read : Code n Lock := req .read

/-- The body of the loop of `wakeup`. -/
def wakeupOne (me p : Fin n) : Code n Unit :=
  if p ≠ me then req (.wakeOne p) else pure ()

def wakeup (me : Fin n) : Code n Unit := Prog.forEach (wakeupOne me) (List.finRange n)

def sleep : Code n Unit := do
  req .sleep
  req .acquire

/-- `acquiresleep` from the test of its loop on. -/
def acquireLoop : Code n Unit := do
  let lk ← read
  if lk.locked then do
    sleep
    req (.goto .waiting)
  else do
    req .take
    req .release
    req (.goto .held)

def acquiresleep : Code n Unit := do
  req .acquire
  acquireLoop

def releasesleep (me : Fin n) : Code n Unit := do
  req .acquire
  req .drop
  wakeup me
  req .release

def holdingsleep (pid : Fin n → Int) (me : Fin n) : Code n Bool := do
  req .acquire
  let lk ← read
  req .release
  return lk.locked && lk.pid == pid me

end Code

/-! ## The system -/

section System

variable {n : Nat} (pid : Fin n → Int)

/-- What a process starts when it has no code left; only the holder calls `releasesleep`. -/
def calls (i : Fin n) (s : St n) (p : Code n Unit) : Prop :=
  match s.pc i with
  | .out => p = acquiresleep ∨ p = (do let _ ← holdingsleep pid i) ∨ ∃ q, p = req (.kill q)
  | .waiting => p = acquireLoop
  | .taken => False
  | .held => p = releasesleep i ∨ p = (do let _ ← holdingsleep pid i) ∨ ∃ q, p = req (.kill q)

inductive Env : St n → (Fin n → Code n Unit) → List Unit → St n → (Fin n → Code n Unit) → Prop where
  /-- A process marks itself `SLEEPING`, and the scheduler releases its `p->lock`. -/
  | slept {s : St n} {th : Fin n → Code n Unit} {i : Fin n} (falling : s.rest i = .falling ()) :
      Env s th [] { s with rest := Function.update s.rest i (.asleep ()) } th

def sys : Sys (Fin n) (Act n) Res (St n) Unit where
  exec := exec pid
  obs _ _ _ := []
  env := Env
  calls := calls pid

/-- `initsleeplock` -/
def start (killed : Fin n → Bool) : St n where
  lock := ⟨false, 0⟩
  lk := none
  rest _ := .awake
  killed := killed
  pc _ := .out

end System

/-! ## Computed runs -/

section Play

variable {n : Nat} {pid : Fin n → Int}

/-- Computes an action of an awake process. -/
def stepOf (pid : Fin n → Int) (i : Fin n) : (a : Act n) → St n → Option (Res a × St n)
  | .acquire, s => if s.lk = none then some ((), { s with lk := some i }) else none
  | .release, s => some ((), { s with lk := none })
  | .read, s => some (s.lock, s)
  | .sleep, s => some ((), { s with lk := none, rest := Function.update s.rest i (.falling ()) })
  | .take, s => some ((), { s with lock := ⟨true, pid i⟩, pc := Function.update s.pc i .taken })
  | .drop, s => some ((), { s with lock := ⟨false, 0⟩, pc := Function.update s.pc i .out })
  | .wakeOne p, s =>
    if (s.rest p).Open then some ((), { s with rest := Function.update s.rest p ((s.rest p).wake ()) }) else none
  | .kill p, s =>
    if (s.rest p).Open then
      some ((), { s with killed := Function.update s.killed p true
                         rest := Function.update s.rest p (s.rest p).rouse })
    else none
  | .goto l, s => some ((), { s with pc := Function.update s.pc i l })

theorem stepOf_sound {i : Fin n} {a : Act n} {s s' : St n} {r : Res a} (up : s.rest i = .awake)
    (h : stepOf pid i a s = some (r, s')) : exec pid i a s r s' := by
  refine ⟨up, ?_⟩
  cases a with
  | acquire | wakeOne p | kill p =>
    simp only [stepOf] at h
    split at h
    · rename_i free
      cases h
      exact ⟨free, rfl⟩
    · cases h
  | read =>
    cases h
    exact ⟨rfl, rfl⟩
  | _ =>
    cases h
    rfl

inductive Move (n : Nat) where
  | slept (i : Fin n)
  | acquiresleep (i : Fin n)
  | releasesleep (i : Fin n)
  | kill (i q : Fin n)
  /-- A process goes on in its loop. -/
  | again (i : Fin n)

def Move.starts (s : St n) : Move n → Option (Fin n × Code n Unit)
  | .acquiresleep i => if s.pc i = .out then some (i, Sleeplock.acquiresleep) else none
  | .releasesleep i => if s.pc i = .held then some (i, Sleeplock.releasesleep i) else none
  | .kill i q => if s.pc i = .out then some (i, req (.kill q)) else none
  | .again i => if s.pc i = .waiting then some (i, acquireLoop) else none
  | .slept _ => none

theorem Move.starts_sound {c : Move n} {s : St n} {i : Fin n} {p : Code n Unit}
    (h : c.starts s = some (i, p)) : calls pid i s p := by
  cases c with
  | slept j => cases h
  | acquiresleep j | releasesleep j =>
    simp only [starts] at h
    split at h
    · rename_i place
      cases h
      rw [calls, place]
      exact Or.inl rfl
    · cases h
  | kill j q =>
    simp only [starts] at h
    split at h
    · rename_i place
      cases h
      rw [calls, place]
      exact Or.inr (Or.inr ⟨q, rfl⟩)
    · cases h
  | again j =>
    simp only [starts] at h
    split at h
    · rename_i place
      cases h
      rw [calls, place]
    · cases h

def engine (pid : Fin n → Int) : Engine (sys pid) (Move n) where
  step i a s := if s.rest i = .awake then stepOf pid i a s else none
  starts c s := c.starts s
  env c s :=
    match c with
    | .slept i => if s.rest i = .falling () then some { s with rest := Function.update s.rest i (.asleep ()) } else none
    | _ => none
  step_sound := by
    intro i a s r s' h
    split at h
    · rename_i up
      exact stepOf_sound up h
    · cases h
  starts_sound := Move.starts_sound
  env_sound := by
    intro c s s' th h
    cases c with
    | slept i =>
      dsimp only at h
      split at h
      · rename_i falling
        cases h
        exact .slept falling
      · cases h
    | _ => cases h

end Play

end Xv6.Sleeplock
