import Xv6.Interleave.Pool

/-!
# Total correctness of a program that runs alone

`must` says of a program, run from a given state without interference, that it comes to its
end whatever answers it gets, and that the result meets a postcondition. A run may stop
early only where `stop` excuses it, so `stop` is where panics and blocked actions are
accounted for.
-/

namespace Interleave

namespace Prog

variable {A : Type} {R : A → Type} {S α β : Type}
variable {step : (a : A) → S → R a → S → Prop} {stop : A → S → Prop}

def must (step : (a : A) → S → R a → S → Prop) (stop : A → S → Prop) :
    Prog A R α → S → (α → S → Prop) → Prop
  | .ret x, s, Q => Q x s
  | .act a k, s, Q => stop a s ∨
      (∃ r s', step a s r s') ∧ ∀ r s', step a s r s' → (k r).must step stop s' Q

@[simp] theorem must_ret (x : α) (s : S) (Q : α → S → Prop) :
    must step stop (ret x) s Q ↔ Q x s := Iff.rfl

@[simp] theorem must_pure (x : α) (s : S) (Q : α → S → Prop) :
    must step stop (pure x) s Q ↔ Q x s := Iff.rfl

theorem must_mono {p : Prog A R α} {s : S} {Q Q' : α → S → Prop}
    (h : must step stop p s Q) (weaker : ∀ x s', Q x s' → Q' x s') : must step stop p s Q' := by
  induction p generalizing s with
  | ret x => exact weaker x s h
  | act a k ih =>
    rcases h with halted | ⟨enabled, rest⟩
    · exact Or.inl halted
    · exact Or.inr ⟨enabled, fun r s' hstep => ih r (rest r s' hstep)⟩

theorem must_bind {p : Prog A R α} {f : α → Prog A R β} {s : S} {Q : β → S → Prop} :
    must step stop (p >>= f) s Q ↔
      must step stop p s (fun x s' => must step stop (f x) s' Q) := by
  induction p generalizing s with
  | ret x => rfl
  | act a k ih =>
    simp only [act_bind, must]
    exact or_congr Iff.rfl (and_congr Iff.rfl
      (forall_congr' fun r => forall_congr' fun s' => imp_congr_right fun _ => ih r))

/-- Sequencing: the first program's postcondition is the second's precondition. -/
theorem must_seq {p : Prog A R α} {f : α → Prog A R β} {s : S} {P : α → S → Prop}
    {Q : β → S → Prop} (first : must step stop p s P)
    (second : ∀ x s', P x s' → must step stop (f x) s' Q) : must step stop (p >>= f) s Q :=
  must_bind.mpr (must_mono first second)

end Prog

section Adequacy

variable {ι A : Type} {R : A → Type} {S O : Type} {M : Sys ι A R S O} {i : ι}
variable {stop : A → S → Prop} {Q : Unit → S → Prop}

/-- If an excused action has no step, then the rest of a run is verified at every point. -/
theorem Sys.Solo.must (halts : ∀ a s r s', stop a s → ¬ M.exec i a s r s') {s s' : S}
    {p p' : Prog A R Unit} {o : List O} (solo : M.Solo i s p o s' p')
    (h : p.must (M.exec i) stop s Q) : p'.must (M.exec i) stop s' Q := by
  induction solo with
  | refl => exact h
  | step exec rest ih =>
    rcases h with halted | ⟨-, next⟩
    · exact absurd exec (halts _ _ _ _ halted)
    · exact ih (next _ _ exec)

/-- A run that gets stuck without excuse refutes a specification. -/
theorem Sys.Solo.not_must (halts : ∀ a s r s', stop a s → ¬ M.exec i a s r s') {s s' : S}
    {p : Prog A R Unit} {a : A} {k : R a → Prog A R Unit} {o : List O}
    (solo : M.Solo i s p o s' (.act a k)) (blamed : ¬ stop a s')
    (stuck : ∀ r s'', ¬ M.exec i a s' r s'') : ¬ p.must (M.exec i) stop s Q := by
  intro h
  rcases solo.must halts h with halted | ⟨⟨r, s'', step⟩, -⟩
  · exact blamed halted
  · exact stuck r s'' step

end Adequacy

end Interleave
