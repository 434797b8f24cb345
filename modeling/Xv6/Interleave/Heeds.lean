import Xv6.Interleave.Must

/-!
# Which actions a program performs

`heeds ok told` says that every action of a program is `ok`, whatever answers it gets that are as
`told` says. Programs that heed a rule keep what the rule protects: along every run, when all
threads heed it (`Sys.Reach.heeds`), and when one runs alone (`Prog.heeds.must`).
-/

namespace Interleave

universe u

namespace Prog

variable {A : Type} {R : A → Type} {α β : Type} {ok ok' : A → Prop} {told told' : (a : A) → R a → Prop}

def heeds (ok : A → Prop) (told : (a : A) → R a → Prop) : Prog A R α → Prop
  | .ret _ => True
  | .act a k => ok a ∧ ∀ r, told a r → (k r).heeds ok told

theorem heeds_pure (x : α) : (pure x : Prog A R α).heeds ok told := trivial

/-- One action, and the rest with its answer. -/
theorem heeds_act {a : A} {f : R a → Prog A R β} (first : ok a) (rest : ∀ r, told a r → (f r).heeds ok told) :
    (call a >>= f).heeds ok told := ⟨first, rest⟩

theorem heeds_call {a : A} (h : ok a) : (call a : Prog A R (R a)).heeds ok told := ⟨h, fun _ _ => trivial⟩

theorem heeds_bind {p : Prog A R α} {f : α → Prog A R β} (first : p.heeds ok told)
    (rest : ∀ x, (f x).heeds ok told) : (p >>= f).heeds ok told := by
  induction p with
  | ret x => exact rest x
  | act a k ih => exact ⟨first.1, fun r hr => ih r (first.2 r hr)⟩

theorem heeds_mono {p : Prog A R α} (h : p.heeds ok told) (weaker : ∀ a, ok a → ok' a)
    (answers : ∀ a r, told' a r → told a r) : p.heeds ok' told' := by
  induction p with
  | ret x => trivial
  | act a k ih => exact ⟨weaker a h.1, fun r hr => ih r (h.2 r (answers a r hr))⟩

/-- Implementations that heed a rule make a program that does. -/
theorem heeds_interp {B : Type} {RB : B → Type} {impl : (b : B) → Prog A R (RB b)}
    (each : ∀ b, (impl b).heeds ok told) (p : Prog B RB α) : (p.interp impl).heeds ok told := by
  induction p with
  | ret x => trivial
  | act b k ih => exact heeds_bind (each b) ih

/-- The same for a program that is verified, when only the actions it may perform are implemented so. -/
theorem heeds_interp_of_wp {B : Type} {RB : B → Type} {impl : (b : B) → Prog A R (RB b)} {Λ : Type u}
    {pre : B → Λ → Prop} {post : (b : B) → Λ → RB b → Λ → Prop} (each : ∀ b l, pre b l → (impl b).heeds ok told)
    (moves : ∀ b l r, ∃ l', post b l r l') {p : Prog B RB α} {l : Λ} {Q : α → Λ → Prop} (h : p.wp pre post l Q) :
    (p.interp impl).heeds ok told := by
  induction p generalizing l with
  | ret x => trivial
  | act b k ih =>
    refine heeds_bind (each b l h.1) fun r => ?_
    obtain ⟨l', moved⟩ := moves b l r
    exact ih r (h.2 r l' moved)

/-- A program all of whose actions leave the ghost state alone. -/
theorem heeds.wp {Λ : Type u} {pre : A → Λ → Prop} {post : (a : A) → Λ → R a → Λ → Prop} {l : Λ}
    (allowed : ∀ a, ok a → pre a l) (keeps : ∀ a r l', ok a → post a l r l' → told a r ∧ l' = l) {p : Prog A R α}
    (h : p.heeds ok told) : p.wp pre post l (fun _ m => m = l) := by
  induction p with
  | ret x => rfl
  | act a k ih =>
    refine ⟨allowed a h.1, fun r l' moved => ?_⟩
    obtain ⟨answer, rfl⟩ := keeps a r l' h.1 moved
    exact ih r (h.2 r answer)

/-! ## Running alone -/

variable {S : Type} {step : (a : A) → S → R a → S → Prop}

/-- The action cannot be performed. -/
def Stuck (step : (a : A) → S → R a → S → Prop) (a : A) (s : S) : Prop := ∀ r s', ¬ step a s r s'

/-- A run that may get stuck: nothing is said about whether the action can be performed. -/
theorem must_act {a : A} {f : R a → Prog A R β} {s : S} {Q : β → S → Prop}
    (rest : ∀ r s', step a s r s' → (f r).must step (Stuck step) s' Q) :
    (call a >>= f).must step (Stuck step) s Q := by
  by_cases stuck : Stuck step a s
  · exact Or.inl stuck
  · simp only [Stuck, not_forall, not_not] at stuck
    exact Or.inr ⟨stuck, rest⟩

/-- What the steps of allowed actions keep holds when the program ends. -/
theorem heeds.must {I : S → Prop} (keeps : ∀ a s r s', ok a → I s → step a s r s' → told a r ∧ I s')
    {p : Prog A R α} (h : p.heeds ok told) {s : S} (start : I s) :
    p.must step (Stuck step) s (fun _ s' => I s') := by
  induction p generalizing s with
  | ret x => exact start
  | act a k ih =>
    refine must_act (f := k) fun r s' moved => ?_
    obtain ⟨answer, next⟩ := keeps a s r s' h.1 start moved
    exact ih r (h.2 r answer) next

end Prog

/-- An invariant of the state that the allowed actions keep holds along every run of threads that
perform no others. -/
theorem Sys.Reach.heeds {ι A : Type} {R : A → Type} {S O : Type} [DecidableEq ι] {M : Sys ι A R S O}
    {ok : A → Prop} {told : (a : A) → R a → Prop} {I : S → Prop}
    (exec : ∀ i a s r s', ok a → I s → M.exec i a s r s' → told a r ∧ I s')
    (calls : ∀ i s p, M.calls i s p → p.heeds ok told)
    (env : ∀ s th o s' th', I s → (∀ i, (th i).heeds ok told) → M.env s th o s' th' →
      I s' ∧ ∀ i, (th' i).heeds ok told) {s₀ s : S} {th₀ th : ι → Prog A R Unit} {tr : List O}
    (start : I s₀) (pool : ∀ i, (th₀ i).heeds ok told) (run : M.Reach s₀ th₀ tr s th) :
    I s ∧ ∀ i, (th i).heeds ok told := by
  induction run with
  | init => exact ⟨start, pool⟩
  | step before next ih =>
    obtain ⟨inv, all⟩ := ih
    cases next with
    | @run _ _ i a k r code moved =>
      have here := all i
      rw [code] at here
      obtain ⟨answer, inv'⟩ := exec i a _ r _ here.1 inv moved
      refine ⟨inv', fun j => ?_⟩
      by_cases self : j = i
      · rw [self, Function.update_self]
        exact here.2 r answer
      · rw [Function.update_of_ne self]
        exact all j
    | @call _ i p idle accepted =>
      refine ⟨inv, fun j => ?_⟩
      by_cases self : j = i
      · rw [self, Function.update_self]
        exact calls i _ p accepted
      · rw [Function.update_of_ne self]
        exact all j
    | env moves => exact env _ _ _ _ _ inv all moves

end Interleave
