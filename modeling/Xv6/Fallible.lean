import Mathlib

/-!
# Sequential programs that may fail

Programs over a state that either return or stop with an error. `Runs x s fits Q`: from
state `s` the program returns exactly if `fits`, and then with a result that meets `Q`.
`Meets x s P Q` asks for less: it returns if `P`, and whenever it returns, `Q` holds.
-/

namespace Fallible

variable {S E α β : Type}

abbrev Exec (S E α : Type) : Type := StateT S (Except E) α

structure Runs (x : Exec S E α) (s : S) (fits : Prop) (Q : α → S → Prop) : Prop where
  ok : fits → ∃ a s', x s = .ok (a, s') ∧ Q a s'
  only : ∀ {a s'}, x s = .ok (a, s') → fits

variable {x : Exec S E α} {f : α → Exec S E β} {s s' : S} {F G : Prop}
variable {Q Q' : α → S → Prop} {R : β → S → Prop}

theorem bind_ok {a : α} (h : x s = .ok (a, s')) : (x >>= f) s = f a s' := by
  change (x s).bind _ = _
  rw [h]
  rfl

theorem bind_error {e : E} (h : x s = .error e) : (x >>= f) s = .error e := by
  change (x s).bind _ = _
  rw [h]
  rfl

theorem bind_ok_inv {b : β} {s'' : S} (h : (x >>= f) s = .ok (b, s'')) :
    ∃ a s', x s = .ok (a, s') ∧ f a s' = .ok (b, s'') := by
  change (x s).bind _ = _ at h
  cases hx : x s with
  | error e =>
    rw [hx] at h
    cases h
  | ok p =>
    rw [hx] at h
    exact ⟨p.1, p.2, rfl, h⟩

namespace Runs

/-- What a run that returned gives. -/
theorem post (h : Runs x s F Q) {a : α} (ran : x s = .ok (a, s')) : Q a s' := by
  obtain ⟨b, t, hb, hQ⟩ := h.ok (h.only ran)
  obtain ⟨rfl, rfl⟩ : b = a ∧ t = s' := by simpa using hb.symm.trans ran
  exact hQ

theorem pure {a : α} (h : Q a s) : Runs (Pure.pure a : Exec S E α) s True Q :=
  ⟨fun _ => ⟨a, s, rfl, h⟩, fun _ => trivial⟩

theorem throw (e : E) : Runs (MonadExcept.throw e : Exec S E α) s False Q :=
  ⟨False.elim, nofun⟩

theorem bind (first : Runs x s F Q) (second : ∀ a s', Q a s' → Runs (f a) s' G R) :
    Runs (x >>= f) s (F ∧ G) R := by
  constructor
  · rintro ⟨h, h'⟩
    obtain ⟨a, t, ran, hQ⟩ := first.ok h
    rw [bind_ok ran]
    exact (second a t hQ).ok h'
  · intro b s'' ran
    obtain ⟨a, t, ran₁, ran₂⟩ := bind_ok_inv ran
    exact ⟨first.only ran₁, (second a t (first.post ran₁)).only ran₂⟩

theorem conseq (h : Runs x s F Q) (iff : F ↔ G) (imp : ∀ a s', Q a s' → Q' a s') :
    Runs x s G Q' := by
  constructor
  · intro h'
    obtain ⟨a, t, ran, hQ⟩ := h.ok (iff.mpr h')
    exact ⟨a, t, ran, imp a t hQ⟩
  · exact fun ran => iff.mp (h.only ran)

theorem fits_iff (h : Runs x s F Q) (iff : F ↔ G) : Runs x s G Q :=
  h.conseq iff fun _ _ hQ => hQ

theorem mono (h : Runs x s F Q) (imp : ∀ a s', Q a s' → Q' a s') : Runs x s F Q' :=
  h.conseq Iff.rfl imp

/-- A step that never fails, before one that may. -/
theorem seq (first : Runs x s True Q) (second : ∀ a s', Q a s' → Runs (f a) s' G R) :
    Runs (x >>= f) s G R :=
  (first.bind second).fits_iff (by simp)

end Runs

structure Meets (x : Exec S E α) (s : S) (P : Prop) (Q : α → S → Prop) : Prop where
  returns : P → ∃ a s', x s = .ok (a, s')
  post : ∀ {a s'}, x s = .ok (a, s') → Q a s'

namespace Meets

variable {P P' : Prop}

theorem of_ok {a : α} (ran : x s = .ok (a, s')) (h : Q a s') : Meets x s P Q := by
  constructor
  · exact fun _ => ⟨a, s', ran⟩
  · intro b t done
    obtain ⟨rfl, rfl⟩ : a = b ∧ s' = t := by simpa using ran.symm.trans done
    exact h

theorem pure {a : α} (h : Q a s) : Meets (Pure.pure a : Exec S E α) s P Q := of_ok rfl h

theorem throw (e : E) (h : ¬ P) : Meets (MonadExcept.throw e : Exec S E α) s P Q :=
  ⟨fun hP => absurd hP h, nofun⟩

theorem bind (first : Meets x s P Q) (second : ∀ a s', Q a s' → Meets (f a) s' P R) :
    Meets (x >>= f) s P R := by
  constructor
  · intro hP
    obtain ⟨a, t, ran⟩ := first.returns hP
    rw [bind_ok ran]
    exact (second a t (first.post ran)).returns hP
  · intro b s'' done
    obtain ⟨a, t, ran, rest⟩ := bind_ok_inv done
    exact (second a t (first.post ran)).post rest

/-- A step whose result is known. -/
theorem step {a : α} (ran : x s = .ok (a, s')) (rest : Meets (f a) s' P R) :
    Meets (x >>= f) s P R := by
  constructor
  · intro hP
    rw [bind_ok ran]
    exact rest.returns hP
  · intro b s'' done
    rw [bind_ok ran] at done
    exact rest.post done

theorem mono (h : Meets x s P Q) (imp : ∀ a s', Q a s' → Q' a s') : Meets x s P Q' :=
  ⟨h.returns, fun ran => imp _ _ (h.post ran)⟩

/-- What a program needs to return may be assumed when it is proved to. -/
theorem needs (h : Meets x s P' Q) (imp : P → P') : Meets x s P Q :=
  ⟨fun hP => h.returns (imp hP), h.post⟩

theorem total (h : Meets x s P Q) (hP : P) : ∃ a s', x s = .ok (a, s') ∧ Q a s' := by
  obtain ⟨a, s', ran⟩ := h.returns hP
  exact ⟨a, s', ran, h.post ran⟩

end Meets

/-! ## Runs that are computed -/

def answer (x : Exec S E α) (s : S) : Option α :=
  match x s with
  | .ok (a, _) => some a
  | .error _ => none

def after (x : Exec S E α) (s : S) : S :=
  match x s with
  | .ok (_, s') => s'
  | .error _ => s

def fault (x : Exec S E α) (s : S) : Option E :=
  match x s with
  | .ok _ => none
  | .error e => some e

theorem ok_of_answer {a : α} (h : answer x s = some a) : x s = .ok (a, after x s) := by
  rw [answer] at h
  rw [after]
  split at h
  · next ran =>
    rw [ran, Option.some.inj h]
  · cases h

/-- The result of a run with what is seen of its last state. -/
def view (x : Exec S E α) (s : S) (f : S → β) : Option (α × β) :=
  match x s with
  | .ok (a, s') => some (a, f s')
  | .error _ => none

theorem ok_of_view {f : S → β} {a : α} {b : β} (h : view x s f = some (a, b)) :
    ∃ s', x s = .ok (a, s') ∧ f s' = b := by
  rw [view] at h
  split at h
  · next s' ran =>
    obtain ⟨rfl, rfl⟩ := Prod.mk.inj (Option.some.inj h)
    exact ⟨s', ran, rfl⟩
  · cases h

theorem error_of_fault {e : E} (h : fault x s = some e) : x s = .error e := by
  rw [fault] at h
  split at h
  · cases h
  · next ran => rw [ran, Option.some.inj h]

end Fallible
