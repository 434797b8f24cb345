import Mathlib

/-!
# Locks and counts seen from the threads

A table says for every lock which thread holds it and for what; every thread's ghost state
says which locks it holds and a private mark on each. `Agrees` ties the two together, `Owns`
where there are no marks. The sums count what the threads of a pool do.
-/

namespace Interleave

section Agrees

variable {ι H B M : Type} [DecidableEq ι] [DecidableEq H]

def Agrees (hold : H → Option (ι × B)) (held : ι → H → Option (B × M)) : Prop :=
  ∀ i h b, hold h = some (i, b) ↔ ∃ m, held i h = some (b, m)

variable {hold : H → Option (ι × B)} {held : ι → H → Option (B × M)}

omit [DecidableEq ι] [DecidableEq H] in
theorem Agrees.hold_eq (hA : Agrees hold held) {i : ι} {h : H} {b : B} {m : M}
    (hb : held i h = some (b, m)) : hold h = some (i, b) :=
  (hA i h b).mpr ⟨m, hb⟩

omit [DecidableEq ι] [DecidableEq H] in
theorem Agrees.blk_eq (hA : Agrees hold held) {i j : ι} {h : H} {b c : B} {m : M}
    (hb : held i h = some (b, m)) (hc : hold h = some (j, c)) : j = i ∧ c = b := by
  have := (hA.hold_eq hb).symm.trans hc
  simp only [Option.some.injEq, Prod.mk.injEq] at this
  exact ⟨this.1.symm, this.2.symm⟩

omit [DecidableEq ι] [DecidableEq H] in
theorem Agrees.none_of_none (hA : Agrees hold held) {h : H} (hn : hold h = none) (i : ι) :
    held i h = none := by
  cases hh : held i h with
  | none => rfl
  | some p =>
    have := hA.hold_eq (m := p.2) hh
    rw [hn] at this
    cases this

theorem Agrees.acquire (hA : Agrees hold held) {h : H} (hn : hold h = none)
    (i : ι) (b : B) (m : M) :
    Agrees (Function.update hold h (some (i, b)))
      (Function.update held i (Function.update (held i) h (some (b, m)))) := by
  intro j h' c
  by_cases hh : h' = h
  · subst hh
    by_cases hj : j = i
    · subst hj
      simp
    · simp [Function.update_of_ne hj, hA.none_of_none hn j, Ne.symm hj]
  · rw [Function.update_of_ne hh, hA j h' c]
    by_cases hj : j = i
    · subst hj
      simp [Function.update_of_ne hh]
    · simp [Function.update_of_ne hj]

theorem Agrees.release (hA : Agrees hold held) {i : ι} {h : H} {b : B} {m : M}
    (hb : held i h = some (b, m)) :
    Agrees (Function.update hold h none)
      (Function.update held i (Function.update (held i) h none)) := by
  intro j h' c
  by_cases hh : h' = h
  · subst hh
    by_cases hj : j = i
    · subst hj
      simp
    · have hold_i := hA.hold_eq hb
      have : ∀ m', held j h' ≠ some (c, m') := by
        intro m' hc
        have := hA.hold_eq hc
        rw [hold_i] at this
        simp only [Option.some.injEq, Prod.mk.injEq] at this
        exact hj this.1.symm
      simp [Function.update_of_ne hj, this]
  · rw [Function.update_of_ne hh, hA j h' c]
    by_cases hj : j = i
    · subst hj
      simp [Function.update_of_ne hh]
    · simp [Function.update_of_ne hj]

theorem Agrees.mark (hA : Agrees hold held) {i : ι} {h : H} {b : B} {m : M}
    (hb : held i h = some (b, m)) (m' : M) :
    Agrees hold (Function.update held i (Function.update (held i) h (some (b, m')))) := by
  intro j h' c
  rw [hA j h' c]
  by_cases hj : j = i
  · subst hj
    by_cases hh : h' = h
    · subst hh
      simp [hb]
    · simp [Function.update_of_ne hh]
  · simp [Function.update_of_ne hj]

omit [DecidableEq H] in
/-- All marks of a thread change. -/
theorem Agrees.remark (hA : Agrees hold held) (i : ι) (f : M → M) :
    Agrees hold (Function.update held i fun h => (held i h).map fun x => (x.1, f x.2)) := by
  intro j h c
  rw [hA j h c]
  by_cases hj : j = i
  · subst hj
    cases e : held j h <;> simp [e, Prod.ext_iff]
  · simp [Function.update_of_ne hj]

end Agrees

section Owns

variable {ι H : Type} [DecidableEq ι] [DecidableEq H] {owner : H → Option ι} {held : ι → Finset H} {i : ι} {h : H}

/-- The table names the owner of everything that is held. -/
def Owns (owner : H → Option ι) (held : ι → Finset H) : Prop := ∀ h i, owner h = some i ↔ h ∈ held i

theorem Owns.insert (owns : Owns owner held) (others : ∀ j, j ≠ i → h ∉ held j) :
    Owns (Function.update owner h (some i)) (Function.update held i (insert h (held i))) := by
  intro h' j
  by_cases hh : h' = h <;> by_cases hj : j = i
  · simp [hh, hj]
  · simp [hh, hj, Ne.symm hj, others j hj]
  · simp [hh, hj, owns h' i]
  · simp [hh, hj, owns h' j]

theorem Owns.erase (owns : Owns owner held) (others : ∀ j, j ≠ i → h ∉ held j) :
    Owns (Function.update owner h none) (Function.update held i ((held i).erase h)) := by
  intro h' j
  by_cases hh : h' = h <;> by_cases hj : j = i
  · simp [hh, hj]
  · simp [hh, hj, others j hj]
  · simp [hh, hj, owns h' i]
  · simp [hh, hj, owns h' j]

omit [DecidableEq ι] [DecidableEq H] in
theorem Owns.unique {j : ι} (owns : Owns owner held) (hi : h ∈ held i) (hj : h ∈ held j) : j = i :=
  Option.some.inj (((owns h j).mpr hj).symm.trans ((owns h i).mpr hi))

end Owns

section Holder

variable {ι Λ α : Type} {d : α} {f : Λ → α} {lock lock' : Option ι} {L : ι → Λ} {i : ι} {l : Λ}

/-- What the thread with the lock says, or `d` while the lock is free. -/
def ofHolder (d : α) (f : Λ → α) (lock : Option ι) (L : ι → Λ) : α := lock.elim d fun i => f (L i)

theorem ofHolder_free (free : lock = none) : ofHolder d f lock L = d := by
  rw [ofHolder, free, Option.elim_none]

theorem ofHolder_held (held : lock = some i) : ofHolder d f lock L = f (L i) := by
  rw [ofHolder, held, Option.elim_some]

variable [DecidableEq ι]

theorem ofHolder_update (held : lock = some i) : ofHolder d f lock (Function.update L i l) = f l := by
  rw [ofHolder_held held, Function.update_self]

theorem ofHolder_frame (same : lock' = lock) (told : f l = f (L i)) :
    ofHolder d f lock' (Function.update L i l) = ofHolder d f lock L := by
  rw [ofHolder, ofHolder, same]
  cases lock with
  | none => rfl
  | some j =>
    by_cases e : j = i
    · subst e
      simpa using told
    · simp [Function.update_of_ne e]

end Holder

section Sums

variable {ι Λ : Type} [DecidableEq ι] [Fintype ι]

/-- A sum over the pool after one thread moved. -/
theorem sum_update (f : Λ → Int) (L : ι → Λ) (i : ι) (l : Λ) :
    ∑ j, f (Function.update L i l j) = ∑ j, f (L j) - f (L i) + f l := by
  have h : (fun j => f (Function.update L i l j)) = Function.update (fun j => f (L j)) i (f l) := by
    funext j
    by_cases hj : j = i
    · subst hj
      simp
    · simp [Function.update_of_ne hj]
  rw [h, Finset.sum_update_of_mem (Finset.mem_univ i),
    ← Finset.sum_erase_eq_sub (Finset.mem_univ i), Finset.sdiff_singleton_eq_erase, add_comm]

end Sums

end Interleave
