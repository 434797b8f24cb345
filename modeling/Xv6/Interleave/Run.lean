import Xv6.Interleave.Pool

/-!
# Computed runs

A `Stepper` computes steps of a system. It need not know every step. The runs it computes
are runs of the system, so a concrete run is exhibited by evaluating a schedule.
-/

namespace Interleave

variable {ι A : Type} {R : A → Type} {S O : Type}

/-- `step` computes an action that is enabled; `ready` and `accepted` say when a thread may
start a program. -/
structure Stepper (M : Sys ι A R S O) where
  step : ι → (a : A) → S → Option (R a × S)
  ready : S → Bool
  accepted : ι → Prog A R Unit → Prop
  step_sound : ∀ {i a s r s'}, step i a s = some (r, s') → M.exec i a s r s'
  call_sound : ∀ {i s p}, ready s = true → accepted i p → M.calls i s p

/-- One entry of a schedule: a thread takes up to `n` steps, or starts a program. -/
inductive Slot (ι A : Type) (R : A → Type) where
  | run (i : ι) (n : Nat)
  | start (i : ι) (p : Prog A R Unit)

namespace Stepper

variable {M : Sys ι A R S O} (E : Stepper M)

/-- Computes runs whose steps pass a test. -/
def restrict {cond : ι → A → S → Prop} (test : ι → A → S → Bool)
    (sound : ∀ {i a s}, test i a s = true → cond i a s) : Stepper (M.restrict cond) where
  step i a s := if test i a s then E.step i a s else none
  ready := E.ready
  accepted := E.accepted
  step_sound := by
    intro i a s r s' h
    split at h
    · exact ⟨sound ‹_›, E.step_sound h⟩
    · cases h
  call_sound := E.call_sound

/-- Thread `i` takes `n` steps, or fewer if its program returns. -/
def run (i : ι) : Nat → S → Prog A R Unit → Option (S × Prog A R Unit)
  | 0, s, p => some (s, p)
  | _ + 1, s, .ret x => some (s, .ret x)
  | n + 1, s, .act a k =>
    match E.step i a s with
    | some (r, s') => run i n s' (k r)
    | none => none

theorem run_solo {i : ι} {n : Nat} {s s' : S} {p p' : Prog A R Unit}
    (h : E.run i n s p = some (s', p')) : ∃ o, M.Solo i s p o s' p' := by
  induction n generalizing s p with
  | zero =>
    obtain ⟨rfl, rfl⟩ : s = s' ∧ p = p' := by simpa [run] using h
    exact ⟨[], .refl⟩
  | succ n ih =>
    cases p with
    | ret x =>
      obtain ⟨rfl, rfl⟩ : s = s' ∧ .ret x = p' := by simpa [run] using h
      exact ⟨[], .refl⟩
    | act a k =>
      simp only [run] at h
      split at h
      · rename_i r s₁ hs
        obtain ⟨o, solo⟩ := ih h
        exact ⟨_, .step (E.step_sound hs) solo⟩
      · cases h

variable [DecidableEq ι]

/-- Follow a schedule. -/
def play : List (Slot ι A R) → S → (ι → Prog A R Unit) → Option (S × (ι → Prog A R Unit))
  | [], s, th => some (s, th)
  | .run i n :: ts, s, th =>
    match E.run i n s (th i) with
    | some (s', p) => play ts s' (Function.update th i p)
    | none => none
  | .start i p :: ts, s, th =>
    match th i, E.ready s with
    | .ret (), true => play ts s (Function.update th i p)
    | _, _ => none

theorem play_reach {ts : List (Slot ι A R)} (ok : ∀ i p, .start i p ∈ ts → E.accepted i p)
    {s₀ s s' : S} {th₀ th th' : ι → Prog A R Unit} {tr : List O}
    (before : M.Reach s₀ th₀ tr s th) (h : E.play ts s th = some (s', th')) :
    ∃ tr', M.Reach s₀ th₀ tr' s' th' := by
  induction ts generalizing s th tr with
  | nil =>
    obtain ⟨rfl, rfl⟩ : s = s' ∧ th = th' := by simpa [play] using h
    exact ⟨tr, before⟩
  | cons t ts ih =>
    have ok' : ∀ i p, .start i p ∈ ts → E.accepted i p :=
      fun i p hm => ok i p (List.mem_cons_of_mem t hm)
    cases t with
    | run i n =>
      simp only [play] at h
      split at h
      · rename_i s₁ p hr
        obtain ⟨o, solo⟩ := E.run_solo hr
        exact ih ok' (solo.reach before rfl) h
      · cases h
    | start i p =>
      simp only [play] at h
      split at h
      · rename_i idle ready
        have step := before.step (.call idle (E.call_sound ready (ok i p List.mem_cons_self)))
        exact ih ok' step h
      · cases h

/-- A schedule whose result passes a test exhibits a reachable configuration that does. -/
theorem exists_reach (ts : List (Slot ι A R)) (s₀ : S) (th₀ : ι → Prog A R Unit)
    (test : S → (ι → Prog A R Unit) → Bool) (ok : ∀ i p, .start i p ∈ ts → E.accepted i p)
    (h : (E.play ts s₀ th₀).any (fun x => test x.1 x.2) = true) :
    ∃ tr s th, M.Reach s₀ th₀ tr s th ∧ test s th = true := by
  cases hplay : E.play ts s₀ th₀ with
  | none =>
    rw [hplay] at h
    cases h
  | some x =>
    obtain ⟨s, th⟩ := x
    rw [hplay] at h
    obtain ⟨tr, run⟩ := E.play_reach ok .init hplay
    exact ⟨tr, s, th, run, h⟩

end Stepper

/-- `move` computes a step of the whole system from a command, with what is recorded. -/
structure Mover [DecidableEq ι] (M : Sys ι A R S O) (C : Type) where
  move : C → S → (ι → Prog A R Unit) → Option (List O × S × (ι → Prog A R Unit))
  allowed : C → Prop
  sound : ∀ {c s th o s' th'}, allowed c → move c s th = some (o, s', th') → M.Step s th o s' th'

namespace Mover

variable [DecidableEq ι] {M : Sys ι A R S O} {C : Type} (E : Mover M C)

/-- Follow a list of commands. -/
def play : List C → List O → S → (ι → Prog A R Unit) → Option (List O × S × (ι → Prog A R Unit))
  | [], tr, s, th => some (tr, s, th)
  | c :: cs, tr, s, th =>
    match E.move c s th with
    | some (o, s', th') => play cs (tr ++ o) s' th'
    | none => none

theorem play_reach {cs : List C} (ok : ∀ c ∈ cs, E.allowed c) {s₀ s s' : S} {th₀ th th' : ι → Prog A R Unit}
    {tr tr' : List O} (before : M.Reach s₀ th₀ tr s th) (h : E.play cs tr s th = some (tr', s', th')) :
    M.Reach s₀ th₀ tr' s' th' := by
  induction cs generalizing s th tr with
  | nil =>
    obtain ⟨rfl, rfl, rfl⟩ : tr = tr' ∧ s = s' ∧ th = th' := by simpa [play] using h
    exact before
  | cons c cs ih =>
    simp only [play] at h
    split at h
    · rename_i o s₁ th₁ moved
      exact ih (fun c hc => ok c (List.mem_cons_of_mem _ hc))
        (before.step (E.sound (ok c List.mem_cons_self) moved)) h
    · cases h

/-- Commands whose result passes a test exhibit a run that does. -/
theorem exists_reach (cs : List C) (s₀ : S) (th₀ : ι → Prog A R Unit)
    (test : List O → S → (ι → Prog A R Unit) → Bool) (ok : ∀ c ∈ cs, E.allowed c)
    (h : (E.play cs [] s₀ th₀).any (fun x => test x.1 x.2.1 x.2.2) = true) :
    ∃ tr s th, M.Reach s₀ th₀ tr s th ∧ test tr s th = true := by
  cases result : E.play cs [] s₀ th₀ with
  | none =>
    rw [result] at h
    cases h
  | some x =>
    obtain ⟨tr, s, th⟩ := x
    rw [result] at h
    exact ⟨tr, s, th, E.play_reach ok .init result, h⟩

end Mover

end Interleave
