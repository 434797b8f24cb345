import Xv6.Interleave.Pool

/-!
# Runs with their whole history

`watch` is a system that records every action with the thread that performed it and the state
before it. It has the same runs; statements about what was so at some moment of a run are
statements about its records.
-/

namespace Interleave

variable {ι A : Type} {R : A → Type} {S O : Type} [DecidableEq ι]

/-- One action of a run. -/
structure Entry (ι A S : Type) where
  thread : ι
  act : A
  state : S

namespace Sys

def watch (M : Sys ι A R S O) : Sys ι A R S (Entry ι A S) where
  exec := M.exec
  obs i a s := [⟨i, a, s⟩]
  env s th o s' th' := o = [] ∧ ∃ o', M.env s th o' s' th'
  calls := M.calls

variable {M : Sys ι A R S O} {s₀ s : S} {th₀ th : ι → Prog A R Unit} {w : List (Entry ι A S)} {tr : List O}

theorem Reach.of_watch (run : M.watch.Reach s₀ th₀ w s th) : ∃ tr, M.Reach s₀ th₀ tr s th := by
  induction run with
  | init => exact ⟨[], .init⟩
  | step before next ih =>
    obtain ⟨tr, run⟩ := ih
    cases next with
    | run code exec => exact ⟨_, run.step (.run code exec)⟩
    | call idle accepted => exact ⟨_, run.step (.call idle accepted)⟩
    | env moves =>
      obtain ⟨-, o, moves⟩ := moves
      exact ⟨_, run.step (.env moves)⟩

/-- What holds in every state that is reached may be assumed at every step. -/
theorem Reach.assume {cond : ι → A → S → Prop} {X : S → Prop}
    (always : ∀ {tr s th}, (M.restrict cond).Reach s₀ th₀ tr s th → X s) (run : (M.restrict cond).Reach s₀ th₀ tr s th) :
    (M.restrict fun i a s => cond i a s ∧ X s).Reach s₀ th₀ tr s th := by
  induction run with
  | init => exact .init
  | step before next ih =>
    cases next with
    | run code exec =>
      exact ih.step (.run (M := M.restrict fun i a s => cond i a s ∧ X s) code ⟨⟨exec.1, always before⟩, exec.2⟩)
    | call idle accepted => exact ih.step (.call idle accepted)
    | env moves => exact ih.step (.env moves)

end Sys

end Interleave
