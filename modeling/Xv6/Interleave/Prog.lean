import Mathlib

/-!
# Programs over atomic actions

A program is a finite tree of atomic actions: it asks for one action at a time and
continues with the answer. Sharing, blocking and scheduling are not described here;
they belong to the machine that executes the actions (`Interleave.Pool`).

`wp` reads a program under a ghost state private to its thread. Every action has a
precondition on that ghost state and a relation that says how the ghost state moves with
the answer. The rules below are the only ones that later proofs use.
-/

namespace Interleave

universe u

/-- A thread's code: `act a k` performs the atomic action `a` and goes on with `k`. -/
inductive Prog (A : Type) (R : A → Type) (α : Type) : Type where
  | ret (x : α)
  | act (a : A) (k : R a → Prog A R α)

namespace Prog

variable {A : Type} {R : A → Type} {α β γ : Type}

def bind : Prog A R α → (α → Prog A R β) → Prog A R β
  | .ret x, f => f x
  | .act a k, f => .act a (fun r => (k r).bind f)

instance : Monad (Prog A R) where
  pure := .ret
  bind := bind

/-- The program that performs one action and returns its answer. -/
def call (a : A) : Prog A R (R a) := .act a .ret

@[simp] theorem ret_bind (x : α) (f : α → Prog A R β) : (ret x : Prog A R α) >>= f = f x := rfl

@[simp] theorem pure_bind (x : α) (f : α → Prog A R β) :
    (pure x : Prog A R α) >>= f = f x := rfl

@[simp] theorem act_bind (a : A) (k : R a → Prog A R α) (f : α → Prog A R β) :
    act a k >>= f = act a (fun r => k r >>= f) := rfl

@[simp] theorem call_bind (a : A) (f : R a → Prog A R β) :
    (call a : Prog A R (R a)) >>= f = act a f := rfl

@[simp] theorem bind_ret (p : Prog A R α) : p >>= ret = p := by
  induction p with
  | ret x => rfl
  | act a k ih => simp only [act_bind, ih]

@[simp] theorem bind_assoc (p : Prog A R α) (f : α → Prog A R β) (g : β → Prog A R γ) :
    p >>= f >>= g = p >>= fun x => f x >>= g := by
  induction p with
  | ret x => rfl
  | act a k ih => simp only [act_bind, ih]

/-- Replace every action by a program over a lower interface that implements it. -/
def interp {B : Type} {RB : B → Type} (impl : (a : A) → Prog B RB (R a)) :
    Prog A R α → Prog B RB α
  | .ret x => .ret x
  | .act a k => impl a >>= fun r => (k r).interp impl

theorem interp_bind {B : Type} {RB : B → Type} (impl : (a : A) → Prog B RB (R a)) (p : Prog A R α)
    (f : α → Prog A R β) : (p >>= f).interp impl = p.interp impl >>= fun x => (f x).interp impl := by
  induction p with
  | ret x => rfl
  | act a k ih => simp only [act_bind, interp, ih, bind_assoc]

/-- The weakest precondition of a program: `pre` must hold of the thread's ghost state
at every action, and `post` bounds the ghost states the action may lead to. -/
def wp {Λ : Type u} (pre : A → Λ → Prop) (post : (a : A) → Λ → R a → Λ → Prop) :
    Prog A R α → Λ → (α → Λ → Prop) → Prop
  | .ret x, l, Q => Q x l
  | .act a k, l, Q => pre a l ∧ ∀ r l', post a l r l' → (k r).wp pre post l' Q

section Rules

variable {Λ : Type u} {pre : A → Λ → Prop} {post : (a : A) → Λ → R a → Λ → Prop}

@[simp] theorem wp_ret (x : α) (l : Λ) (Q : α → Λ → Prop) :
    wp pre post (ret x) l Q ↔ Q x l := Iff.rfl

@[simp] theorem wp_pure (x : α) (l : Λ) (Q : α → Λ → Prop) :
    wp pre post (pure x) l Q ↔ Q x l := Iff.rfl

@[simp] theorem wp_act (a : A) (k : R a → Prog A R α) (l : Λ) (Q : α → Λ → Prop) :
    wp pre post (act a k) l Q ↔
      pre a l ∧ ∀ r l', post a l r l' → wp pre post (k r) l' Q := Iff.rfl

theorem wp_mono {p : Prog A R α} {l : Λ} {Q Q' : α → Λ → Prop}
    (h : wp pre post p l Q) (weaker : ∀ x l', Q x l' → Q' x l') : wp pre post p l Q' := by
  induction p generalizing l with
  | ret x => exact weaker x l h
  | act a k ih => exact ⟨h.1, fun r l' hp => ih r (h.2 r l' hp)⟩

theorem wp_bind {p : Prog A R α} {f : α → Prog A R β} {l : Λ} {Q : β → Λ → Prop} :
    wp pre post (p >>= f) l Q ↔ wp pre post p l (fun x l' => wp pre post (f x) l' Q) := by
  induction p generalizing l with
  | ret x => rfl
  | act a k ih =>
    constructor
    · exact fun h => ⟨h.1, fun r l' hp => (ih r).mp (h.2 r l' hp)⟩
    · exact fun h => ⟨h.1, fun r l' hp => (ih r).mpr (h.2 r l' hp)⟩

/-- Sequencing: the first program's postcondition is the second's precondition. -/
theorem wp_seq {p : Prog A R α} {f : α → Prog A R β} {l : Λ} {P : α → Λ → Prop}
    {Q : β → Λ → Prop} (first : wp pre post p l P)
    (second : ∀ x l', P x l' → wp pre post (f x) l' Q) : wp pre post (p >>= f) l Q :=
  wp_bind.mpr (wp_mono first second)

/-- A program verified with a richer ghost state is verified with the part `f` keeps. -/
theorem wp_project {Λ' : Type u} {pre' : A → Λ' → Prop} {post' : (a : A) → Λ' → R a → Λ' → Prop}
    (f : Λ → Λ') (hpre : ∀ a l, pre a l → pre' a (f l))
    (hpost : ∀ a l r m, pre a l → post' a (f l) r m → ∃ l', f l' = m ∧ post a l r l')
    {p : Prog A R α} {l : Λ} {Q : α → Λ → Prop} (h : wp pre post p l Q) :
    wp pre' post' p (f l) (fun x m => ∃ l', f l' = m ∧ Q x l') := by
  induction p generalizing l with
  | ret x => exact ⟨l, rfl, h⟩
  | act a k ih =>
    refine ⟨hpre a l h.1, fun r m hm => ?_⟩
    obtain ⟨l', rfl, hl⟩ := hpost a l r m h.1 hm
    exact ih r (h.2 r l' hl)

end Rules

end Prog

end Interleave
