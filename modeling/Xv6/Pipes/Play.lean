import Xv6.Interleave.Engine
import Xv6.Pipes.Model

/-!
# Computed runs of the pipe
-/

namespace Xv6.Pipes

open Interleave

variable {n : Nat}

/-- Computes an action of an awake process. -/
def stepOf (i : Fin n) : (a : Act n) → St n → Option (Res a × St n)
  | .acquire, s => if s.lock = none then some ((), { s with lock := some i, fresh := false }) else none
  | .release, s => some ((), { s with lock := none })
  | .pipe, s => some (s.pipe, s)
  | .killed, s => some (s.killed i, s)
  | .sleep chan, s => some ((), { s with lock := none, rest := Function.update s.rest i (.falling chan) })
  | .wakeOne chan p, s =>
    if (s.rest p).Open then some ((), { s with rest := Function.update s.rest p ((s.rest p).wake chan) }) else none
  | .copyin va, s => some (Fs.copyin (s.mem i) va 1, s)
  | .put ch, s => some ((), { s with pipe := s.pipe.put ch, fresh := true })
  | .get, s => some (s.pipe.get, { s with pipe := s.pipe.got })
  | .copyout va ch, s => some ((Fs.copyout (s.mem i) (va % 2 ^ 64) [ch]).2,
      { s with mem := Function.update s.mem i (Fs.copyout (s.mem i) (va % 2 ^ 64) [ch]).1 })
  | .close writable, s => some ((), { s with pipe := s.pipe.close writable })
  | .kfree, s => some ((), s)
  | .kill p, s =>
    if (s.rest p).Open then
      some ((), { s with killed := Function.update s.killed p true
                         rest := Function.update s.rest p (s.rest p).rouse })
    else none
  | .enter _, s => some ((), s)
  | .wrote _, s => some ((), s)
  | .took _, s => some ((), s)
  | .goto l, s => some ((), { s with pc := Function.update s.pc i l })

theorem stepOf_sound {i : Fin n} {a : Act n} {s s' : St n} {r : Res a} (up : s.rest i = .awake)
    (h : stepOf i a s = some (r, s')) : exec i a s r s' := by
  refine ⟨up, ?_⟩
  cases a with
  | acquire | wakeOne chan p | kill p =>
    simp only [stepOf] at h
    split at h
    · rename_i free
      cases h
      exact ⟨free, rfl⟩
    · cases h
  | pipe | killed | copyin va | get | copyout va ch =>
    cases h
    exact ⟨rfl, rfl⟩
  | _ =>
    cases h
    rfl

/-- What a process starts, or who marks itself `SLEEPING`. -/
inductive Move (n : Nat) where
  | slept (i : Fin n)
  | write (i : Fin n) (addr : Nat) (n' : Int)
  | read (i : Fin n) (addr : Nat) (n' : Int)
  | kill (i q : Fin n)
  /-- A process goes on in its loop. -/
  | again (i : Fin n)

variable (valid : Fs.UMem → Nat → Nat → Prop) [∀ m a l, Decidable (valid m a l)]

def Move.starts (s : St n) : Move n → Option (Fin n × Code n Unit)
  | .write i addr n' =>
    if s.pc i = .user ∧ valid (s.mem i) addr n'.toNat then some (i, pipewrite i addr n') else none
  | .read i addr n' => if s.pc i = .user ∧ valid (s.mem i) addr n'.toNat then some (i, piperead i addr n') else none
  | .kill i q => if s.pc i = .user then some (i, req (.kill q)) else none
  | .again i =>
    match s.pc i with
    | .writing addr n' todo => some (i, writeFrom i addr n' todo)
    | .reading addr n' => some (i, readWait i addr n')
    | .user => none
  | .slept _ => none

variable {valid}

theorem Move.starts_sound {c : Move n} {s : St n} {i : Fin n} {p : Code n Unit}
    (h : c.starts valid s = some (i, p)) : calls valid i s p := by
  cases c with
  | slept j => cases h
  | write j addr n' =>
    simp only [starts] at h
    split at h
    · rename_i ok
      cases h
      rw [calls, ok.1]
      exact Or.inl ⟨addr, n', ok.2, Or.inl rfl⟩
    · cases h
  | read j addr n' =>
    simp only [starts] at h
    split at h
    · rename_i ok
      cases h
      rw [calls, ok.1]
      exact Or.inl ⟨addr, n', ok.2, Or.inr rfl⟩
    · cases h
  | kill j q =>
    simp only [starts] at h
    split at h
    · rename_i ok
      cases h
      rw [calls, ok]
      exact Or.inr (Or.inr ⟨q, rfl⟩)
    · cases h
  | again j =>
    simp only [starts] at h
    split at h
    · rename_i place
      cases h
      rw [calls, place]
    · rename_i place
      cases h
      rw [calls, place]
    · cases h

variable (valid)

def engine : Engine (sys n valid) (Move n) where
  step i a s := if s.rest i = .awake then stepOf i a s else none
  starts c s := c.starts valid s
  env c s :=
    match c with
    | .slept i =>
      match s.rest i with
      | .falling chan => some { s with rest := Function.update s.rest i (.asleep chan) }
      | _ => none
    | _ => none
  step_sound := by
    intro i a s r s' h
    split at h
    · rename_i up
      exact stepOf_sound up h
    · cases h
  starts_sound := Move.starts_sound
  env_sound := by
    intro c s s' th h
    cases c with
    | slept i =>
      dsimp only at h
      split at h
      · rename_i chan falling
        cases h
        exact .slept falling
      · cases h
    | _ => cases h

end Xv6.Pipes
