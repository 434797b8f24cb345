import Xv6.Interleave.Prog

/-!
# Interleaving threads on a shared machine

A system executes one atomic action of one thread at a time, in any order. An action that
is not enabled has no transition, so a blocked thread simply waits. Beside the threads an
environment may move the state (and the pool itself, as a power failure does), and a
thread whose program has returned may start another program that the system accepts.

The invariant rule `Logic.reach_inv` turns one obligation per action into a statement
about every run of every pool of threads.
-/

namespace Interleave

universe u

/-- `exec` performs one action of a thread, `obs` is what an observer records of it,
`env` is the environment and `calls` the programs an idle thread may start. -/
structure Sys (ι A : Type) (R : A → Type) (S O : Type) where
  exec : ι → (a : A) → S → R a → S → Prop
  obs : ι → A → S → List O
  env : S → (ι → Prog A R Unit) → List O → S → (ι → Prog A R Unit) → Prop
  calls : ι → S → Prog A R Unit → Prop

namespace Sys

variable {ι A : Type} {R : A → Type} {S O : Type} [DecidableEq ι]

inductive Step (M : Sys ι A R S O) :
    S → (ι → Prog A R Unit) → List O → S → (ι → Prog A R Unit) → Prop where
  | run {s s' : S} {th : ι → Prog A R Unit} {i : ι} {a : A} {k : R a → Prog A R Unit} {r : R a}
      (code : th i = .act a k) (exec : M.exec i a s r s') :
      Step M s th (M.obs i a s) s' (Function.update th i (k r))
  | call {s : S} {th : ι → Prog A R Unit} {i : ι} {p : Prog A R Unit}
      (idle : th i = .ret ()) (accepted : M.calls i s p) :
      Step M s th [] s (Function.update th i p)
  | env {s s' : S} {th th' : ι → Prog A R Unit} {o : List O} (moves : M.env s th o s' th') :
      Step M s th o s' th'

/-- The configurations a run reaches, with the observations made on the way. -/
inductive Reach (M : Sys ι A R S O) (s₀ : S) (th₀ : ι → Prog A R Unit) :
    List O → S → (ι → Prog A R Unit) → Prop where
  | init : Reach M s₀ th₀ [] s₀ th₀
  | step {tr o : List O} {s s' : S} {th th' : ι → Prog A R Unit}
      (before : Reach M s₀ th₀ tr s th) (next : M.Step s th o s' th') :
      Reach M s₀ th₀ (tr ++ o) s' th'

theorem Reach.trans {M : Sys ι A R S O} {s₀ s s' : S} {th₀ th th' : ι → Prog A R Unit} {tr tr' : List O}
    (first : M.Reach s₀ th₀ tr s th) (second : M.Reach s th tr' s' th') : M.Reach s₀ th₀ (tr ++ tr') s' th' := by
  induction second with
  | init => simpa using first
  | step before next ih =>
    rw [← List.append_assoc]
    exact ih.step next

/-- One thread runs for a while and the others rest. -/
inductive Solo (M : Sys ι A R S O) (i : ι) : S → Prog A R Unit → List O → S → Prog A R Unit → Prop
    where
  | refl {s : S} {p : Prog A R Unit} : Solo M i s p [] s p
  | step {s s' s'' : S} {a : A} {k : R a → Prog A R Unit} {r : R a} {p : Prog A R Unit}
      {o : List O} (exec : M.exec i a s r s') (rest : Solo M i s' (k r) o s'' p) :
      Solo M i s (.act a k) (M.obs i a s ++ o) s'' p

theorem Solo.reach {M : Sys ι A R S O} {s₀ s s' : S} {th₀ th : ι → Prog A R Unit} {tr o : List O}
    {i : ι} {p p' : Prog A R Unit} (before : M.Reach s₀ th₀ tr s th) (code : th i = p)
    (solo : M.Solo i s p o s' p') :
    M.Reach s₀ th₀ (tr ++ o) s' (Function.update th i p') := by
  induction solo generalizing tr th with
  | refl => simpa [← code] using before
  | step exec rest ih =>
    have := ih (before.step (.run code exec)) (by simp)
    simpa using this

/-- Thread `i`, run alone, can get from `p` to where `P` holds. -/
def Can (M : Sys ι A R S O) (i : ι) (s : S) (p : Prog A R Unit)
    (P : List O → S → Prog A R Unit → Prop) : Prop :=
  ∃ o s' p', M.Solo i s p o s' p' ∧ P o s' p'

omit [DecidableEq ι] in
theorem Can.done {M : Sys ι A R S O} {i : ι} {s : S} {p : Prog A R Unit}
    {P : List O → S → Prog A R Unit → Prop} (h : P [] s p) : M.Can i s p P :=
  ⟨[], s, p, .refl, h⟩

omit [DecidableEq ι] in
theorem Can.step {M : Sys ι A R S O} {i : ι} {s s' : S} {a : A} {k : R a → Prog A R Unit}
    {P : List O → S → Prog A R Unit → Prop} (r : R a) (exec : M.exec i a s r s')
    (rest : M.Can i s' (k r) fun o => P (M.obs i a s ++ o)) : M.Can i s (.act a k) P := by
  obtain ⟨o, s'', p', solo, h⟩ := rest
  exact ⟨_, s'', p', .step exec solo, h⟩

theorem Can.reach {M : Sys ι A R S O} {s₀ s : S} {th₀ th : ι → Prog A R Unit} {tr : List O} {i : ι}
    {p : Prog A R Unit} {P : List O → S → Prog A R Unit → Prop} (can : M.Can i s p P)
    (before : M.Reach s₀ th₀ tr s th) (code : th i = p) :
    ∃ o s' p', P o s' p' ∧ M.Reach s₀ th₀ (tr ++ o) s' (Function.update th i p') := by
  obtain ⟨o, s', p', solo, h⟩ := can
  exact ⟨o, s', p', h, solo.reach before code⟩

/-- The same system when every executed action meets a condition on the state before it. -/
def restrict (M : Sys ι A R S O) (cond : ι → A → S → Prop) : Sys ι A R S O where
  exec i a s r s' := cond i a s ∧ M.exec i a s r s'
  obs := M.obs
  env := M.env
  calls := M.calls

/-- Runs of a system are runs of one that executes more. -/
theorem Reach.mono {M N : Sys ι A R S O} (exec : ∀ i a s r s', M.exec i a s r s' → N.exec i a s r s')
    (obs : M.obs = N.obs) (env : M.env = N.env) (calls : M.calls = N.calls) {s₀ s : S}
    {th₀ th : ι → Prog A R Unit} {tr : List O} (run : M.Reach s₀ th₀ tr s th) :
    N.Reach s₀ th₀ tr s th := by
  induction run with
  | init => exact .init
  | step before next ih =>
    cases next with
    | run code step =>
      rw [obs]
      exact ih.step (.run code (exec _ _ _ _ _ step))
    | call idle accepted => exact ih.step (.call idle (calls ▸ accepted))
    | env moves => exact ih.step (.env (env ▸ moves))

theorem Reach.of_restrict {M : Sys ι A R S O} {cond : ι → A → S → Prop} {s₀ s : S}
    {th₀ th : ι → Prog A R Unit} {tr : List O} (run : (M.restrict cond).Reach s₀ th₀ tr s th) :
    M.Reach s₀ th₀ tr s th :=
  Reach.mono (M := M.restrict cond) (fun _ _ _ _ _ step => step.2) rfl rfl rfl run

theorem Reach.weaken {M : Sys ι A R S O} {cond cond' : ι → A → S → Prop}
    (weaker : ∀ i a s, cond i a s → cond' i a s) {s₀ s : S} {th₀ th : ι → Prog A R Unit} {tr : List O}
    (run : (M.restrict cond).Reach s₀ th₀ tr s th) : (M.restrict cond').Reach s₀ th₀ tr s th :=
  Reach.mono (M := M.restrict cond) (N := M.restrict cond')
    (fun i a s _ _ step => ⟨weaker i a s step.1, step.2⟩) rfl rfl rfl run

end Sys

/-- Ghost reasoning about a system: every thread carries a private ghost state, `inv`
relates all of them to the shared state and the record of the run, and each kind of step
keeps `inv` when the stepping thread respects `pre`. -/
structure Logic {ι A : Type} {R : A → Type} {S O : Type} [DecidableEq ι]
    (M : Sys ι A R S O) (Λ : Type u) where
  inv : List O → S → (ι → Λ) → Prop
  pre : A → Λ → Prop
  post : (a : A) → Λ → R a → Λ → Prop
  fin : Λ → Prop
  run_sound : ∀ {tr s L i a r s'}, inv tr s L → pre a (L i) → M.exec i a s r s' →
    ∃ l, post a (L i) r l ∧ inv (tr ++ M.obs i a s) s' (Function.update L i l)
  call_sound : ∀ {tr s L i p}, inv tr s L → fin (L i) → M.calls i s p →
    ∃ l, p.wp pre post l (fun _ l' => fin l') ∧ inv tr s (Function.update L i l)
  env_sound : ∀ {tr s L th o s' th'}, inv tr s L →
    (∀ i, (th i).wp pre post (L i) (fun _ l => fin l)) → M.env s th o s' th' →
    ∃ L', inv (tr ++ o) s' L' ∧ ∀ i, (th' i).wp pre post (L' i) (fun _ l => fin l)

namespace Logic

variable {ι A : Type} {R : A → Type} {S O : Type} [DecidableEq ι] {M : Sys ι A R S O}
variable {Λ : Type u} (G : Logic M Λ)

/-- Every thread of the pool is verified against its ghost state. -/
def Verified (th : ι → Prog A R Unit) (L : ι → Λ) : Prop :=
  ∀ i, (th i).wp G.pre G.post (L i) (fun _ l => G.fin l)

theorem verified_update {th : ι → Prog A R Unit} {L : ι → Λ} (h : G.Verified th L)
    {i : ι} {p : Prog A R Unit} {l : Λ} (hp : p.wp G.pre G.post l (fun _ l' => G.fin l')) :
    G.Verified (Function.update th i p) (Function.update L i l) := by
  intro j
  by_cases hj : j = i
  · subst hj
    simpa only [Function.update_self] using hp
  · simpa only [Function.update_of_ne hj] using h j

theorem step_inv {tr o : List O} {s s' : S} {th th' : ι → Prog A R Unit} {L : ι → Λ}
    (hi : G.inv tr s L) (hv : G.Verified th L) (next : M.Step s th o s' th') :
    ∃ L', G.inv (tr ++ o) s' L' ∧ G.Verified th' L' := by
  cases next with
  | @run _ _ i a k r code exec =>
    have hw := hv i
    rw [code] at hw
    obtain ⟨l, hpost, hinv⟩ := G.run_sound hi hw.1 exec
    exact ⟨_, hinv, G.verified_update hv (hw.2 r l hpost)⟩
  | @call _ i p idle accepted =>
    have hw := hv i
    rw [idle] at hw
    obtain ⟨l, hp, hinv⟩ := G.call_sound hi hw accepted
    exact ⟨_, by simpa only [List.append_nil] using hinv, G.verified_update hv hp⟩
  | env moves => exact G.env_sound hi hv moves

/-- Invariant rule: what holds at the start and is kept by every kind of step holds in
every configuration of every run. -/
theorem reach_inv {s₀ : S} {th₀ : ι → Prog A R Unit} {L₀ : ι → Λ}
    (start : G.inv [] s₀ L₀) (verified : G.Verified th₀ L₀)
    {tr : List O} {s : S} {th : ι → Prog A R Unit} (run : M.Reach s₀ th₀ tr s th) :
    ∃ L, G.inv tr s L ∧ G.Verified th L := by
  induction run with
  | init => exact ⟨L₀, start, verified⟩
  | step before next ih =>
    obtain ⟨L, hi, hv⟩ := ih
    exact G.step_inv hi hv next

end Logic

end Interleave
