import Mathlib
import Xv6.Interleave.Pool

/-!
# Rules with a computed ghost state

In most developments the ghost state of a thread moves as a function of the action and its answer.
`Rules` has that function, what the answer tells about the ghost state, and what an action needs.
Records of runs are read through `Orderly`: every entry fits what came before it.
-/

namespace Interleave

universe u

/-- `pre` is what an action needs, `tells` what its answer says, `next` how the ghost state moves. -/
structure Rules (A : Type) (R : A → Type) (Λ : Type u) where
  pre : A → Λ → Prop
  tells : (a : A) → Λ → R a → Prop
  next : (a : A) → Λ → R a → Λ

namespace Rules

variable {A : Type} {R : A → Type} {Λ : Type u} {α β ι : Type} (G : Rules A R Λ)

def post (a : A) (l : Λ) (r : R a) (l' : Λ) : Prop := G.tells a l r ∧ l' = G.next a l r

/-- The program may be executed in `l`, and `Q` holds at its end. -/
def wp (p : Prog A R α) (l : Λ) (Q : α → Λ → Prop) : Prop := p.wp G.pre G.post l Q

variable {G} {l : Λ} {p : Prog A R α} {f : α → Prog A R β} {Q : β → Λ → Prop}

theorem wp_ret {x : β} (h : Q x l) : G.wp (pure x) l Q := h

/-- One action, and the rest with its answer. -/
theorem wp_act {a : A} {k : R a → Prog A R β} (ok : G.pre a l)
    (rest : ∀ r, G.tells a l r → G.wp (k r) (G.next a l r) Q) : G.wp (Prog.call a >>= k) l Q := by
  refine ⟨ok, ?_⟩
  rintro r m ⟨told, rfl⟩
  exact rest r told

/-- The last action. -/
theorem wp_last {a : A} {Q : R a → Λ → Prop} (ok : G.pre a l)
    (rest : ∀ r, G.tells a l r → Q r (G.next a l r)) : G.wp (Prog.call a) l Q := by
  refine ⟨ok, ?_⟩
  rintro r m ⟨told, rfl⟩
  exact rest r told

theorem wp_mono {P : α → Λ → Prop} {P' : α → Λ → Prop} (h : G.wp p l P) (weaker : ∀ x m, P x m → P' x m) :
    G.wp p l P' := Prog.wp_mono h weaker

theorem wp_seq {P : α → Λ → Prop} (first : G.wp p l P) (second : ∀ x m, P x m → G.wp (f x) m Q) :
    G.wp (p >>= f) l Q := Prog.wp_seq first second

/-- The program may be executed in `l` and leaves `l'`. -/
def Does (G : Rules A R Λ) (p : Prog A R α) (l l' : Λ) : Prop := G.wp p l fun _ m => m = l'

/-- Execute `p`, then verify the rest. -/
theorem Does.then {l' : Λ} (first : G.Does p l l') (second : ∀ x, G.wp (f x) l' Q) : G.wp (p >>= f) l Q := by
  refine wp_seq first ?_
  rintro x m rfl
  exact second x

end Rules

/-- What the rules promise holds along the runs of one thread, when it holds of every step. -/
theorem Sys.Solo.rules {ι A : Type} {R : A → Type} {S O : Type} {Λ : Type u} {M : Sys ι A R S O} {i : ι}
    {G : Rules A R Λ} {I : List O → S → Λ → Prop}
    (keeps : ∀ tr s l a r s', I tr s l → G.pre a l → M.exec i a s r s' →
      G.tells a l r ∧ I (tr ++ M.obs i a s) s' (G.next a l r)) {s s' : S} {p p' : Prog A R Unit} {o : List O}
    (run : M.Solo i s p o s' p') {tr : List O} {l : Λ} {Q : Unit → Λ → Prop} (start : I tr s l) (ok : G.wp p l Q) :
    ∃ l', I (tr ++ o) s' l' ∧ G.wp p' l' Q := by
  induction run generalizing tr l with
  | refl =>
    rw [List.append_nil]
    exact ⟨l, start, ok⟩
  | step exec rest ih =>
    obtain ⟨told, next⟩ := keeps _ _ _ _ _ _ start ok.1 exec
    rw [← List.append_assoc]
    exact ih next (ok.2 _ _ ⟨told, rfl⟩)

/-! ## Loops -/

namespace Prog

variable {A : Type} {R : A → Type} {ι : Type}

/-- A loop over a list. -/
def forEach (body : ι → Prog A R Unit) : List ι → Prog A R Unit
  | [] => pure ()
  | x :: xs => do
    body x
    forEach body xs

end Prog

/-- `I done` holds when the loop has visited `done`. -/
theorem Rules.wp_forEach {A : Type} {R : A → Type} {Λ : Type u} {ι : Type} {G : Rules A R Λ}
    {body : ι → Prog A R Unit} {I : Set ι → Λ → Prop}
    (each : ∀ x done l, I done l → G.wp (body x) l fun _ m => I (insert x done) m) (xs : List ι) {done : Set ι}
    {l : Λ} (start : I done l) : G.wp (Prog.forEach body xs) l fun _ m => I (done ∪ {x | x ∈ xs}) m := by
  induction xs generalizing done l with
  | nil => simpa using! Rules.wp_ret (G := G) (Q := fun _ m => I done m) start
  | cons x xs ih =>
    refine Rules.wp_seq (each x done l start) fun _ m visited => Rules.wp_mono (ih visited) fun _ m' rest => ?_
    have same : insert x done ∪ {y | y ∈ xs} = done ∪ {y | y ∈ x :: xs} := by
      ext y
      simp only [Set.mem_union, Set.mem_insert_iff, Set.mem_ofPred_eq, List.mem_cons]
      grind
    rwa [same] at rest

/-! ## Records -/

/-- Every entry of a record fits what came before it. -/
def Orderly {O : Type} (fits : List O → O → Prop) (tr : List O) : Prop :=
  ∀ before e after, tr = before ++ e :: after → fits before e

theorem Orderly.nil {O : Type} {fits : List O → O → Prop} : Orderly fits [] := by
  intro before e after h
  simp at h

theorem Orderly.append {O : Type} {fits : List O → O → Prop} {tr : List O} {e : O} (h : Orderly fits tr)
    (last : fits tr e) : Orderly fits (tr ++ [e]) := by
  intro before x after split
  rcases List.eq_nil_or_concat after with rfl | ⟨after, y, rfl⟩
  · obtain ⟨rfl, rfl⟩ := List.append_singleton_inj.mp split
    exact last
  · rw [List.concat_eq_append, ← List.cons_append, ← List.append_assoc] at split
    obtain ⟨rfl, -⟩ := List.append_singleton_inj.mp split
    exact h before x after rfl

end Interleave
