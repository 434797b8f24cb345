import Xv6.Interleave.Run

/-!
# Engines

Most systems are computed in the same way: an action of a thread, code that an idle thread starts, or
a move of the environment that leaves the threads and the record alone. An `Engine` has these three
and gives a `Mover` of the runs all of whose actions pass a test.
-/

namespace Interleave

variable {ι A : Type} {R : A → Type} {S O : Type} {M : Sys ι A R S O} {C : Type}

structure Engine (M : Sys ι A R S O) (C : Type) where
  step : ι → (a : A) → S → Option (R a × S)
  starts : C → S → Option (ι × Prog A R Unit)
  env : C → S → Option S
  step_sound : ∀ {i a s r s'}, step i a s = some (r, s') → M.exec i a s r s'
  starts_sound : ∀ {c s i p}, starts c s = some (i, p) → M.calls i s p
  env_sound : ∀ {c s s' th}, env c s = some s' → M.env s th [] s' th

/-- What happens next: a thread takes a step, starts code, or the environment moves. -/
inductive Cmd (ι C : Type) where
  | step (i : ι)
  | start (c : C)
  | env (c : C)

namespace Engine

variable [DecidableEq ι] (E : Engine M C) (test : ι → A → S → Bool)

def move : Cmd ι C → S → (ι → Prog A R Unit) → Option (List O × S × (ι → Prog A R Unit))
  | .step i, s, th =>
    match th i with
    | .ret () => none
    | .act a k =>
      if test i a s then (E.step i a s).map fun x => (M.obs i a s, x.2, Function.update th i (k x.1)) else none
  | .start c, s, th =>
    match E.starts c s with
    | some (i, p) =>
      match th i with
      | .ret () => some ([], s, Function.update th i p)
      | .act _ _ => none
    | none => none
  | .env c, s, th => (E.env c s).map fun s' => ([], s', th)

theorem move_sound {cmd : Cmd ι C} {s s' : S} {th th' : ι → Prog A R Unit} {o : List O}
    (h : E.move test cmd s th = some (o, s', th')) :
    (M.restrict fun i a s => test i a s = true).Step s th o s' th' := by
  cases cmd with
  | step i =>
    simp only [move] at h
    split at h
    · cases h
    · rename_i a k code
      split at h
      · rename_i passed
        obtain ⟨⟨r, s₁⟩, done, heq⟩ := Option.map_eq_some_iff.mp h
        cases heq
        exact .run (M := M.restrict fun i a s => test i a s = true) code ⟨passed, E.step_sound done⟩
      · cases h
  | start c =>
    simp only [move] at h
    split at h
    · rename_i i p code
      split at h
      · rename_i idle
        cases h
        exact .call idle (E.starts_sound code)
      · cases h
    · cases h
  | env c =>
    obtain ⟨s₁, moved, heq⟩ := Option.map_eq_some_iff.mp h
    cases heq
    exact .env (E.env_sound moved)

def mover : Mover (M.restrict fun i a s => test i a s = true) (Cmd ι C) where
  move := E.move test
  allowed _ := True
  sound _ h := E.move_sound test h

/-- Commands whose result passes a check exhibit a run that does. -/
theorem exists_reach (cmds : List (Cmd ι C)) (s₀ : S) (th₀ : ι → Prog A R Unit)
    (check : List O → S → (ι → Prog A R Unit) → Bool)
    (h : (((E.mover test).play cmds [] s₀ th₀).any fun x => check x.1 x.2.1 x.2.2) = true) :
    ∃ tr s th, (M.restrict fun i a s => test i a s = true).Reach s₀ th₀ tr s th ∧ check tr s th = true :=
  (E.mover test).exists_reach cmds s₀ th₀ check (fun _ _ => trivial) h

end Engine

end Interleave
