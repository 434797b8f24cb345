import Mathlib
import Xv6.Process.Steps

/-!
# Parents, children and the record of a run

The last two parts of the invariant: what `exit`, `wait` and `fork` rely on under `wait_lock`, and
what the events of a run say.
-/

namespace Xv6.Process

open Interleave

variable {n : Nat} {κ : Type} [DecidableEq κ] {initproc : Fin n}
variable {s s' : St n κ} {L L' : Thread n κ → Gh n κ} {i : Thread n κ} {c d : κ} {a : Act n}
variable {r : Res a} {l : Gh n κ} {tr : List (Ev n κ)}

/-! ## Family -/

omit [DecidableEq κ] in
/-- What was known stays known when parents stay, nobody falls asleep and nobody exits. -/
theorem Knows.mono {p : Fin n} (h : Knows s L p) (fam : (L' (.proc p)).fam.kids = (L (.proc p)).fam.kids ∧
      (L' (.proc p)).fam.clear = (L (.proc p)).fam.clear ∧ (L' (.proc p)).fam.calm = (L (.proc p)).fam.calm ∧
      (L' (.proc p)).fam.parent = (L (.proc p)).fam.parent)
    (awake : ∀ q ∈ (L' (.proc p)).fam.awake, q ∈ (L (.proc p)).fam.awake ∨ ¬ Dozes s' L' q)
    (parent : ∀ q, (s'.proc q).parent = (s.proc q).parent) (doze : ∀ q, Dozes s' L' q → Dozes s L q)
    (zombie : ∀ q, (s'.proc q).state = .zombie → (s.proc q).state = .zombie) : Knows s' L' p := by
  obtain ⟨kids, clear, calm, father⟩ := fam
  refine ⟨fun q hq => ?_, fun q hq => ?_, fun q hq => ?_, fun q hq child dead => ?_, fun o ho => ?_⟩
  · rw [parent]
    exact h.kids q (kids ▸ hq)
  · rw [parent]
    exact h.clear q (clear ▸ hq)
  · rcases awake q hq with old | new
    · exact fun dozes => h.awake q old (doze q dozes)
    · exact new
  · rw [parent] at child
    exact h.calm q (calm ▸ hq) child (zombie q dead)
  · rw [parent]
    exact h.parent o (father ▸ ho)

/-- Steps that change no parent, put nobody to sleep and make no zombie. -/
theorem Family.mono (F : Family initproc s L) (hc : s.running c = i) (running : s'.running = s.running)
    (live : ∀ p, Live (s.proc p).state → Live (s'.proc p).state)
    (chan : ∀ p, Live (s'.proc p).state → (Function.update L i l (.proc p)).chan = (s'.proc p).chan)
    (still : ∀ p, (s'.proc p).state = .unused ∨ (s'.proc p).state = .used → (s'.proc p).chan = none)
    (parent : ∀ p, (s'.proc p).parent = (s.proc p).parent)
    (orphan : ∀ p, (s'.proc p).state = .unused → (s.proc p).state = .unused)
    (young : ∀ p b, l.child = some (p, b) → ∀ q, (s.proc p).parent = some q → i = .proc q)
    (fall : l.fam.fall → (L i).fam.fall) (falls : ∀ p, i = .proc p → l.fam.fall → .proc p ∈ l.held)
    (dozes : ∀ p, (s'.proc p).state = .sleeping → (s'.proc p).chan = some (.proc p) → Dozes s L p)
    (zombie : ∀ p, (s'.proc p).state = .zombie → (s.proc p).state = .zombie)
    (wait : .wait ∈ l.held ↔ .wait ∈ (L i).held)
    (owe : Dozes s' (Function.update L i l) initproc → (L i).fam.owe → l.fam.owe)
    (knows : ∀ p, i = .proc p → .wait ∈ l.held → Knows s L p →
      (∀ q, Dozes s' (Function.update L i l) q → Dozes s L q) → Knows s' (Function.update L i l) p) :
    Family initproc s' (Function.update L i l) := by
  have fallen : ∀ p, (Function.update L i l (.proc p)).fam.fall → (L (.proc p)).fam.fall := by
    intro p h
    by_cases self : Thread.proc p = i
    · rw [self, Function.update_self] at h
      rw [self]
      exact fall h
    · rwa [Function.update_of_ne self] at h
  have doze : ∀ p, Dozes s' (Function.update L i l) p → Dozes s L p := by
    rintro p (⟨asleep, on⟩ | h)
    · exact dozes p asleep on
    · exact Or.inr (fallen p h)
  refine ⟨chan, still, fun p q hp => ?_, fun p hp => ?_, live _ F.init, fun t p b ht q hq => ?_, fun p hp => ?_,
    fun p q hp hq hz => ?_, fun e p he hw => ?_⟩
  · exact live q (F.parents p q ((parent p).symm.trans hp))
  · rw [parent]
    exact F.orphan p (orphan p hp)
  · rw [parent] at hq
    by_cases self : t = i
    · subst self
      rw [Function.update_self] at ht
      exact young p b ht q hq
    · rw [Function.update_of_ne self] at ht
      exact F.young t p b ht q hq
  · obtain ⟨⟨e, he⟩, mem⟩ := F.falls p (fallen p hp)
    refine ⟨⟨e, running ▸ he⟩, ?_⟩
    by_cases self : Thread.proc p = i
    · rw [self, Function.update_self] at hp ⊢
      exact falls p self.symm hp
    · rw [Function.update_of_ne self]
      exact mem
  · rw [parent] at hq
    obtain ⟨rfl, e, mem, due⟩ := F.asleep p q (doze p hp) hq (zombie q hz)
    refine ⟨rfl, e, ?_⟩
    rw [running]
    by_cases self : s.running e = i
    · rw [self, Function.update_self]
      rw [self] at mem due
      exact ⟨wait.mpr mem, owe hp due⟩
    · rw [Function.update_of_ne self]
      exact ⟨mem, due⟩
  · rw [running] at he
    by_cases self : Thread.proc p = i
    · have old : Knows s L p := F.knows e p he (by
        rw [self, Function.update_self] at hw
        rw [self]
        exact wait.mp hw)
      rw [self, Function.update_self] at hw
      exact knows p self.symm hw old doze
    · have same : Function.update L i l (.proc p) = L (.proc p) := Function.update_of_ne self _ _
      rw [same] at hw
      exact (F.knows e p he hw).mono (by rw [same]; exact ⟨rfl, rfl, rfl, rfl⟩)
        (fun q hq => Or.inl (same ▸ hq)) parent doze zombie

/-- Steps that concern neither states nor channels nor parents, and no lock that matters here. -/
theorem Family.keep (F : Family initproc s L) (hc : s.running c = i) (running : s'.running = s.running)
    (same : ∀ p, (s'.proc p).state = (s.proc p).state ∧ (s'.proc p).chan = (s.proc p).chan ∧
      (s'.proc p).parent = (s.proc p).parent)
    (chan : l.chan = (L i).chan) (child : l.child = (L i).child) (fam : l.fam = (L i).fam)
    (falls : ∀ p, i = .proc p → l.fam.fall → .proc p ∈ l.held)
    (wait : .wait ∈ l.held ↔ .wait ∈ (L i).held) : Family initproc s' (Function.update L i l) := by
  have state : ∀ p, (s'.proc p).state = (s.proc p).state := fun p => (same p).1
  refine F.mono hc running (fun p => by rw [state]; exact id) (fun p live => ?_) (fun p hp => ?_)
    (fun p => (same p).2.2) (fun p => by rw [state]; exact id) (fun p b hp q hq => ?_) (by rw [fam]; exact id)
    falls (fun p asleep on => Or.inl ?_) (fun p => by rw [state]; exact id) wait (fun _ => by rw [fam]; exact id)
    fun p self _ old doze => ?_
  · rw [field_update (f := Gh.chan) chan, (same p).2.1]
    exact F.chan p (state p ▸ live)
  · rw [(same p).2.1]
    exact F.still p (state p ▸ hp)
  · exact F.young i p b (child ▸ hp) q hq
  · exact ⟨(state p).symm.trans asleep, (same p).2.1.symm.trans on⟩
  · have here : (Function.update L i l (.proc p)).fam = (L (.proc p)).fam := field_update fam _
    refine old.mono ?_ (fun q hq => Or.inl (here ▸ hq)) (fun q => (same q).2.2) doze fun q => by
      rw [state]
      exact id
    rw [here]
    exact ⟨rfl, rfl, rfl, rfl⟩

/-- The record of one process changes, but not its channel and parent. -/
theorem Family.poke (F : Family initproc s L) (hc : s.running c = i) {p : Fin n} {x : Proc n}
    (chan : x.chan = (s.proc p).chan) (parent : x.parent = (s.proc p).parent)
    (live : Live (s.proc p).state → Live x.state)
    (alive : Live x.state → (L (.proc p)).chan = (s.proc p).chan)
    (still : x.state = .unused ∨ x.state = .used → (s.proc p).chan = none)
    (orphan : x.state = .unused → (s.proc p).state = .unused)
    (asleep : x.state = .sleeping → x.chan = some (.proc p) → Dozes s L p)
    (zombie : x.state = .zombie → (s.proc p).state = .zombie)
    (lchan : l.chan = (L i).chan) (held : l.held = (L i).held)
    (young : ∀ p b, l.child = some (p, b) → ∀ q, (s.proc p).parent = some q → i = .proc q)
    (fall : l.fam.fall → (L i).fam.fall) (owe : Dozes (s.setProc p x) (Function.update L i l) initproc →
      (L i).fam.owe → l.fam.owe)
    (fam : l.fam.kids = (L i).fam.kids ∧ l.fam.clear = (L i).fam.clear ∧ l.fam.calm = (L i).fam.calm ∧
      l.fam.parent = (L i).fam.parent)
    (awake : ∀ q ∈ l.fam.awake, q ∈ (L i).fam.awake ∨ ¬ Dozes (s.setProc p x) (Function.update L i l) q) :
    Family initproc (s.setProc p x) (Function.update L i l) := by
  have at_p : (s.setProc p x).proc p = x := by simp [St.setProc]
  have at_q : ∀ q, q ≠ p → (s.setProc p x).proc q = s.proc q := fun q hq => Function.update_of_ne hq _ _
  have parents : ∀ q, ((s.setProc p x).proc q).parent = (s.proc q).parent := by
    intro q
    by_cases hq : q = p
    · rw [hq, at_p, parent]
    · rw [at_q q hq]
  have zombies : ∀ q, ((s.setProc p x).proc q).state = .zombie → (s.proc q).state = .zombie := by
    intro q h
    by_cases hq : q = p
    · rw [hq, at_p] at h
      rw [hq]
      exact zombie h
    · rwa [at_q q hq] at h
  refine F.mono hc rfl (fun q h => ?_) (fun q h => ?_) (fun q h => ?_) parents (fun q h => ?_) young fall
    (fun q self h => ?_) (fun q sleeps on => ?_) zombies (by rw [held]) owe fun q self _ old doze => ?_
  · by_cases hq : q = p
    · rw [hq, at_p]
      exact live (hq ▸ h)
    · rwa [at_q q hq]
  · rw [field_update (f := Gh.chan) lchan]
    by_cases hq : q = p
    · rw [hq, at_p] at h ⊢
      exact (alive h).trans chan.symm
    · rw [at_q q hq] at h ⊢
      exact F.chan q h
  · by_cases hq : q = p
    · rw [hq, at_p] at h ⊢
      exact chan.trans (still h)
    · rw [at_q q hq] at h ⊢
      exact F.still q h
  · by_cases hq : q = p
    · rw [hq, at_p] at h
      rw [hq]
      exact orphan h
    · rwa [at_q q hq] at h
  · subst self
    rw [held]
    exact (F.falls q (fall h)).2
  · by_cases hq : q = p
    · rw [hq, at_p] at sleeps on
      rw [hq]
      exact asleep sleeps on
    · rw [at_q q hq] at sleeps on
      exact Or.inl ⟨sleeps, on⟩
  · subst self
    refine old.mono ?_ (fun q hq => ?_) parents doze zombies
    · rw [Function.update_self]
      exact fam
    · rw [Function.update_self] at hq
      exact awake q hq

omit [DecidableEq κ] in
theorem not_live {st : ProcState} (h : st = .unused ∨ st = .used ∨ st = .zombie) : ¬ Live st := by
  rcases h with rfl | rfl | rfl <;> (intro live; rcases live with h | h | h <;> cases h)

/-- A process becomes a zombie: it has no children, and its parent is not asleep in `wait`. -/
theorem Family.exit (F : Family initproc s L) (K : Locks s L) {p : Fin n} (hc : s.running c = .proc p)
    (may : (L (.proc p)).MayExit initproc p) :
    Family initproc (s.setProc p { s.proc p with state := .zombie })
      (Function.update L (.proc p) (next initproc (.setState p .zombie) (L (.proc p)) ())) := by
  obtain ⟨notInit, wait, -, -, clear, owe, o, father, awake⟩ := may
  have known := F.knows c p hc wait
  have childless : ∀ q, (s.proc q).parent ≠ some p := fun q => known.clear q (clear q)
  obtain ⟨U, hU⟩ : ∃ U, U = Function.update L (.proc p) (next initproc (.setState p .zombie) (L (.proc p)) ()) :=
    ⟨_, rfl⟩
  obtain ⟨t, ht⟩ : ∃ t, t = s.setProc p { s.proc p with state := .zombie } := ⟨_, rfl⟩
  have at_p : t.proc p = { s.proc p with state := .zombie } := by simp [ht, St.setProc]
  have at_q : ∀ q, q ≠ p → t.proc q = s.proc q := fun q hq => by simp [ht, St.setProc, Function.update_of_ne hq]
  have running : t.running = s.running := by rw [ht]; rfl
  have parents : ∀ q, (t.proc q).parent = (s.proc q).parent := by
    intro q
    by_cases hq : q = p
    · rw [hq, at_p]
    · rw [at_q q hq]
  have fallen : ∀ q, (U (.proc q)).fam.fall → q ≠ p ∧ (L (.proc q)).fam.fall := by
    intro q h
    by_cases hq : q = p
    · rw [hq, hU, Function.update_self] at h
      exact h.elim
    · rw [hU, Function.update_of_ne fun e => hq (Thread.proc.inj e)] at h
      exact ⟨hq, h⟩
  have doze : ∀ q, Dozes t U q → q ≠ p ∧ Dozes s L q := by
    rintro q (⟨asleep, on⟩ | h)
    · have hq : q ≠ p := by
        rintro rfl
        rw [at_p] at asleep
        cases asleep
      rw [at_q q hq] at asleep on
      exact ⟨hq, Or.inl ⟨asleep, on⟩⟩
    · exact ⟨(fallen q h).1, Or.inr (fallen q h).2⟩
  have helds : ∀ u, (U u).held = (L u).held := by
    rw [hU]
    exact field_update (by rfl)
  rw [← hU, ← ht]
  refine ⟨fun q live => ?_, fun q hq => ?_, fun q m hq => ?_, fun q hq => ?_, ?_, fun u q b hu m hm => ?_,
    fun q hq => ?_, fun q m hq hm dead => ?_, fun e q he hw => ?_⟩
  · have hq : q ≠ p := by
      rintro rfl
      rw [at_p] at live
      exact not_live (Or.inr (Or.inr rfl)) live
    rw [at_q q hq] at live ⊢
    rw [hU, Function.update_of_ne fun e => hq (Thread.proc.inj e)]
    exact F.chan q live
  · have hp : q ≠ p := by
      rintro rfl
      rw [at_p] at hq
      rcases hq with h | h <;> cases h
    rw [at_q q hp] at hq ⊢
    exact F.still q hq
  · rw [parents] at hq
    have hm : m ≠ p := by
      rintro rfl
      exact childless q hq
    rw [at_q m hm]
    exact F.parents q m hq
  · rw [parents]
    have hp : q ≠ p := by
      rintro rfl
      rw [at_p] at hq
      cases hq
    rw [at_q q hp] at hq
    exact F.orphan q hq
  · rw [at_q _ (Ne.symm notInit)]
    exact F.init
  · rw [parents] at hm
    rw [hU, field_update (f := Gh.child) (by rfl)] at hu
    exact F.young u q b hu m hm
  · obtain ⟨-, old⟩ := fallen q hq
    rw [running, helds]
    exact F.falls q old
  · rw [parents] at hm
    obtain ⟨-, old⟩ := doze q hq
    by_cases self : m = p
    · subst self
      have : o = some q := (known.parent o father).symm.trans hm
      exact absurd old (known.awake q (awake q this))
    · rw [at_q m self] at dead
      obtain ⟨-, e, mem, due⟩ := F.asleep q m old hm dead
      obtain rfl := K.one mem (hc.symm ▸ wait)
      exact absurd (hc ▸ due) owe
  · rw [running] at he
    rw [helds] at hw
    obtain rfl := K.one (he.symm ▸ hw) (hc.symm ▸ wait)
    obtain rfl := Thread.proc.inj (he.symm.trans hc)
    have fam : (U (.proc q)).fam = { (L (.proc q)).fam with fall := False } := by
      rw [hU, Function.update_self]
      rfl
    refine ⟨fun m hm => ?_, fun m hm => ?_, fun m hm h => ?_, fun m hm h => ?_, fun x hx => ?_⟩
    · rw [parents]
      exact known.kids m (by rw [fam] at hm; exact hm)
    · rw [parents]
      exact childless m
    · exact known.awake m (by rw [fam] at hm; exact hm) (doze m h).2
    · rw [parents] at h
      exact absurd h (childless m)
    · rw [parents]
      exact known.parent x (by rw [fam] at hx; exact hx)

/-- A process gets a parent, by a process that holds `wait_lock`. -/
theorem Family.setParent (F : Family initproc s L) (K : Locks s L) {m p o : Fin n} (hc : s.running c = .proc m)
    (wait : .wait ∈ (L (.proc m)).held) (live : Live (s.proc o).state) (used : (s.proc p).state ≠ .unused)
    (chan : l.chan = (L (.proc m)).chan) (child : l.child = (L (.proc m)).child)
    (held : l.held = (L (.proc m)).held) (fall : l.fam.fall = (L (.proc m)).fam.fall)
    (young : ∀ t b, (L t).child = some (p, b) → t = .proc o)
    (late : (s.proc p).state = .zombie → o = initproc ∧ l.fam.owe) (owe : (L (.proc m)).fam.owe → l.fam.owe)
    (knows : Knows s L m → (∀ q, q ∈ l.fam.kids → q ≠ p → q ∈ (L (.proc m)).fam.kids) ∧
      (p ∈ l.fam.kids → o = m) ∧ (∀ q, q ∈ l.fam.clear → q ≠ p → q ∈ (L (.proc m)).fam.clear) ∧
      (p ∈ l.fam.clear → o ≠ m) ∧ l.fam.awake = (L (.proc m)).fam.awake ∧
      l.fam.calm = (L (.proc m)).fam.calm ∧ (o = m → (s.proc p).state ≠ .zombie) ∧
      (∀ x, l.fam.parent = some x → m ≠ p ∧ (L (.proc m)).fam.parent = some x)) :
    Family initproc (s.setProc p { s.proc p with parent := some o }) (Function.update L (.proc m) l) := by
  obtain ⟨t, ht⟩ : ∃ t, t = s.setProc p { s.proc p with parent := some o } := ⟨_, rfl⟩
  obtain ⟨U, hU⟩ : ∃ U, U = Function.update L (.proc m) l := ⟨_, rfl⟩
  have at_p : (t.proc p).parent = some o := by simp [ht, St.setProc]
  have at_q : ∀ q, q ≠ p → (t.proc q).parent = (s.proc q).parent := fun q hq => by
    simp [ht, St.setProc, Function.update_of_ne hq]
  have same : ∀ q, (t.proc q).state = (s.proc q).state ∧ (t.proc q).chan = (s.proc q).chan := by
    intro q
    by_cases hq : q = p
    · subst hq
      simp [ht, St.setProc]
    · simp [ht, St.setProc, Function.update_of_ne hq]
  have state : ∀ q, (t.proc q).state = (s.proc q).state := fun q => (same q).1
  have running : t.running = s.running := by rw [ht]; rfl
  have fallen : ∀ u, (U u).fam.fall = (L u).fam.fall := by
    rw [hU]
    exact field_update (f := fun l : Gh n κ => l.fam.fall) fall
  have doze : ∀ q, Dozes t U q ↔ Dozes s L q := fun q => by rw [Dozes, Dozes, state, (same q).2, fallen]
  have helds : ∀ u, (U u).held = (L u).held := by
    rw [hU]
    exact field_update held
  have here : U (.proc m) = l := by rw [hU, Function.update_self]
  rw [← hU, ← ht]
  refine ⟨fun q hq => ?_, fun q hq => ?_, fun q f hq => ?_, fun q hq => ?_, ?_, fun u q b hu f hf => ?_,
    fun q hq => ?_, fun q f hq hf dead => ?_, fun e q he hw => ?_⟩
  · rw [state] at hq
    rw [(same q).2, hU, field_update (f := Gh.chan) chan]
    exact F.chan q hq
  · rw [state] at hq
    rw [(same q).2]
    exact F.still q hq
  · rw [state]
    by_cases self : q = p
    · subst self
      obtain rfl := Option.some.inj (at_p.symm.trans hq)
      exact live
    · exact F.parents q f ((at_q q self).symm.trans hq)
  · rw [state] at hq
    have self : q ≠ p := by
      rintro rfl
      exact used hq
    rw [at_q q self]
    exact F.orphan q hq
  · rw [state]
    exact F.init
  · rw [hU, field_update (f := Gh.child) child] at hu
    by_cases self : q = p
    · subst self
      obtain rfl := Option.some.inj (at_p.symm.trans hf)
      exact young u b hu
    · exact F.young u q b hu f ((at_q q self).symm.trans hf)
  · rw [fallen] at hq
    rw [running, helds]
    exact F.falls q hq
  · rw [state] at dead
    rw [running]
    by_cases self : f = p
    · subst self
      obtain ⟨init, due⟩ := late dead
      obtain rfl := Option.some.inj (at_p.symm.trans hf)
      refine ⟨init, c, ?_⟩
      rw [helds, hc, here]
      exact ⟨wait, due⟩
    · obtain ⟨init, e, mem, due⟩ := F.asleep q f ((doze q).mp hq) ((at_q f self).symm.trans hf) dead
      obtain rfl := K.one mem (hc.symm ▸ wait)
      refine ⟨init, e, ?_⟩
      rw [helds, hc, here]
      exact ⟨wait, owe (hc ▸ due)⟩
  · rw [running] at he
    rw [helds] at hw
    obtain rfl := K.one (he.symm ▸ hw) (hc.symm ▸ wait)
    obtain rfl := Thread.proc.inj (he.symm.trans hc)
    have old := F.knows e q he wait
    obtain ⟨kids, kid, clear, unclear, awake, calm, alive, father⟩ := knows old
    refine ⟨fun f hf => ?_, fun f hf => ?_, fun f hf h => ?_, fun f hf h => ?_, fun x hx => ?_⟩
    all_goals rw [here] at *
    · by_cases self : f = p
      · subst self
        rw [at_p, kid hf]
      · rw [at_q f self]
        exact old.kids f (kids f hf self)
    · by_cases self : f = p
      · subst self
        rw [at_p]
        exact fun e => unclear hf (Option.some.inj e)
      · rw [at_q f self]
        exact old.clear f (clear f hf self)
    · exact old.awake f (awake ▸ hf) ((doze f).mp h)
    · rw [state]
      by_cases self : f = p
      · subst self
        exact alive (Option.some.inj (at_p.symm.trans h))
      · exact old.calm f (calm ▸ hf) ((at_q f self).symm.trans h)
    · obtain ⟨self, hx⟩ := father x hx
      rw [at_q q self]
      exact old.parent x hx

/-- A process is freed that nobody executes: only the thread that frees it may have it as a child. -/
theorem Family.freeproc (F : Family initproc s L) {p : Fin n}
    (state : (s.proc p).state = .used ∨ (s.proc p).state = .zombie) (idle : ∀ d, s.running d ≠ .proc p)
    (mine : ∀ e q, s.running e = .proc q → .wait ∈ (L (.proc q)).held → (s.proc p).parent = some q → .proc q = i) :
    Family initproc (s.setProc p Proc.freed) (Function.update L i (next initproc (.freeproc p) (L i) ())) := by
  obtain ⟨t, ht⟩ : ∃ t, t = s.setProc p Proc.freed := ⟨_, rfl⟩
  obtain ⟨U, hU⟩ : ∃ U, U = Function.update L i (next initproc (.freeproc p) (L i) ()) := ⟨_, rfl⟩
  have at_p : t.proc p = Proc.freed := by simp [ht, St.setProc]
  have at_q : ∀ q, q ≠ p → t.proc q = s.proc q := fun q hq => by simp [ht, St.setProc, Function.update_of_ne hq]
  have dead : ¬ Live (s.proc p).state := not_live (Or.inr state)
  have running : t.running = s.running := by rw [ht]; rfl
  have helds : ∀ u, (U u).held = (L u).held := by
    rw [hU]
    exact field_update (by rfl)
  have fams : ∀ u, (U u).fam.fall = (L u).fam.fall ∧ (U u).fam.owe = (L u).fam.owe := by
    intro u
    rw [hU]
    exact ⟨field_update (f := fun l : Gh n κ => l.fam.fall) (by rfl) u,
      field_update (f := fun l : Gh n κ => l.fam.owe) (by rfl) u⟩
  have parents : ∀ q f, (t.proc q).parent = some f → q ≠ p ∧ (s.proc q).parent = some f := by
    intro q f hq
    have self : q ≠ p := by
      rintro rfl
      rw [at_p] at hq
      cases hq
    rw [at_q q self] at hq
    exact ⟨self, hq⟩
  have doze : ∀ q, Dozes t U q → Dozes s L q := by
    rintro q (⟨asleep, on⟩ | h)
    · have self : q ≠ p := by
        rintro rfl
        rw [at_p] at asleep
        cases asleep
      rw [at_q q self] at asleep on
      exact Or.inl ⟨asleep, on⟩
    · exact Or.inr ((fams _).1 ▸ h)
  rw [← hU, ← ht]
  refine ⟨fun q hq => ?_, fun q hq => ?_, fun q f hq => ?_, fun q hq => ?_, ?_, fun u q b hu f hf => ?_,
    fun q hq => ?_, fun q f hq hf gone => ?_, fun e q he hw => ?_⟩
  · have self : q ≠ p := by
      rintro rfl
      rw [at_p] at hq
      exact not_live (Or.inl rfl) hq
    rw [at_q q self] at hq ⊢
    rw [hU, field_update (f := Gh.chan) (by rfl)]
    exact F.chan q hq
  · by_cases self : q = p
    · subst self
      rw [at_p]
      rfl
    · rw [at_q q self] at hq ⊢
      exact F.still q hq
  · obtain ⟨-, hq⟩ := parents q f hq
    have live := F.parents q f hq
    have self : f ≠ p := by
      rintro rfl
      exact dead live
    rw [at_q f self]
    exact live
  · by_cases self : q = p
    · subst self
      rw [at_p]
      rfl
    · rw [at_q q self] at hq ⊢
      exact F.orphan q hq
  · have self : initproc ≠ p := by
      rintro rfl
      exact dead F.init
    rw [at_q _ self]
    exact F.init
  · obtain ⟨-, hf⟩ := parents q f hf
    by_cases self : u = i
    · rw [hU, self, Function.update_self] at hu
      cases hu
    · rw [hU, Function.update_of_ne self] at hu
      exact F.young u q b hu f hf
  · rw [(fams _).1] at hq
    rw [running, helds]
    exact F.falls q hq
  · obtain ⟨self, hf⟩ := parents f q hf
    rw [at_q f self] at gone
    obtain ⟨init, e, mem, due⟩ := F.asleep q f (doze q hq) hf gone
    refine ⟨init, e, ?_⟩
    rw [running, helds, (fams _).2]
    exact ⟨mem, due⟩
  · rw [running] at he
    rw [helds] at hw
    have old := F.knows e q he hw
    have notSelf : q ≠ p := by
      rintro rfl
      exact idle e he
    have kids : ∀ f ∈ (U (.proc q)).fam.kids, f ≠ p ∧ f ∈ (L (.proc q)).fam.kids := by
      intro f hf
      by_cases self : Thread.proc q = i
      · rw [hU, self, Function.update_self] at hf
        rw [self]
        exact ⟨hf.2, hf.1⟩
      · rw [hU, Function.update_of_ne self] at hf
        refine ⟨?_, hf⟩
        rintro rfl
        exact self (mine e q he hw (old.kids f hf))
    have rest : (U (.proc q)).fam.clear = (L (.proc q)).fam.clear ∧ (U (.proc q)).fam.awake = (L (.proc q)).fam.awake ∧
        (U (.proc q)).fam.calm = (L (.proc q)).fam.calm ∧ (U (.proc q)).fam.parent = (L (.proc q)).fam.parent := by
      rw [hU]
      exact ⟨field_update (f := fun l : Gh n κ => l.fam.clear) (by rfl) _,
        field_update (f := fun l : Gh n κ => l.fam.awake) (by rfl) _,
        field_update (f := fun l : Gh n κ => l.fam.calm) (by rfl) _,
        field_update (f := fun l : Gh n κ => l.fam.parent) (by rfl) _⟩
    obtain ⟨clear, awake, calm, father⟩ := rest
    refine ⟨fun f hf => ?_, fun f hf h => ?_, fun f hf h => ?_, fun f hf h => ?_, fun x hx => ?_⟩
    · obtain ⟨self, hf⟩ := kids f hf
      rw [at_q f self]
      exact old.kids f hf
    · exact old.clear f (clear ▸ hf) (parents f q h).2
    · exact old.awake f (awake ▸ hf) (doze f h)
    · obtain ⟨self, h⟩ := parents f q h
      rw [at_q f self]
      exact old.calm f (calm ▸ hf) h
    · rw [at_q q notSelf]
      exact old.parent x (father ▸ hx)

/-- Steps after which the same threads are falling asleep, except perhaps the one that moves, and
that change nothing in the process table. -/
theorem Family.lockStep (F : Family initproc s L) (running : s'.running = s.running) (proc : s'.proc = s.proc)
    (chan : l.chan = (L i).chan) (child : l.child = (L i).child)
    (falls : ∀ p, i = .proc p → l.fam.fall → (∃ c, s.running c = .proc p) ∧ .proc p ∈ l.held)
    (asleep : ∀ p q, (Dozes s L p ∨ i = .proc p ∧ l.fam.fall) → (s.proc q).parent = some p →
      (s.proc q).state = .zombie → False)
    (knows : ∀ e p, s.running e = .proc p → .wait ∈ (Function.update L i l (.proc p)).held →
      Knows s' (Function.update L i l) p) :
    Family initproc s' (Function.update L i l) := by
  have doze : ∀ p, Dozes s' (Function.update L i l) p → Dozes s L p ∨ i = .proc p ∧ l.fam.fall := by
    rintro p (h | h)
    · rw [proc] at h
      exact Or.inl (Or.inl h)
    · by_cases self : Thread.proc p = i
      · rw [self, Function.update_self] at h
        exact Or.inr ⟨self.symm, h⟩
      · rw [Function.update_of_ne self] at h
        exact Or.inl (Or.inr h)
  refine ⟨fun p hp => ?_, ?_, ?_, ?_, ?_, fun t p b ht q hq => ?_, fun p hp => ?_, fun p q hp hq dead => ?_,
    fun e p he hw => ?_⟩
  · rw [proc] at hp ⊢
    rw [field_update (f := Gh.chan) chan]
    exact F.chan p hp
  · rw [proc]
    exact F.still
  · rw [proc]
    exact F.parents
  · rw [proc]
    exact F.orphan
  · rw [proc]
    exact F.init
  · rw [proc] at hq
    rw [field_update (f := Gh.child) child] at ht
    exact F.young t p b ht q hq
  · rw [running]
    by_cases self : Thread.proc p = i
    · rw [self, Function.update_self] at hp ⊢
      exact self ▸ falls p self.symm hp
    · rw [Function.update_of_ne self] at hp ⊢
      exact F.falls p hp
  · rw [proc] at hq dead
    exact (asleep p q (doze p hp) hq dead).elim
  · exact knows e p (running ▸ he) hw

/-- `wait_lock` is taken. -/
theorem Family.lockWait (F : Family initproc s L) (K : Locks s L) (free : s.lock .wait = none) :
    Family initproc (s.setLock .wait (some c)) (Function.update L i ((L i).locked .wait)) := by
  refine F.lockStep rfl rfl rfl rfl (fun p _ fall => ?_) (fun p q hp hq dead => ?_) fun e p he hw => ?_
  · exact False.elim fall
  · rcases hp with doze | ⟨-, fall⟩
    · obtain ⟨-, e, mem, -⟩ := F.asleep p q doze hq dead
      exact K.none free e mem
    · exact fall
  · by_cases self : Thread.proc p = i
    · have blank : (Function.update L i ((L i).locked .wait) (.proc p)).fam = Fam.blank := by
        rw [self, Function.update_self]
        rfl
      refine ⟨?_, ?_, ?_, ?_, ?_⟩ <;> rw [blank]
      all_goals first | exact fun q h => h.elim | exact nofun
    · rw [Function.update_of_ne self] at hw
      exact absurd (he.symm ▸ hw) (K.none free e)

/-- `wait_lock` is released by a thread that owes init nothing. -/
theorem Family.unlockWait (F : Family initproc s L) (K : Locks s L) (P : Places s L) (hc : s.running c = i)
    (mem : .wait ∈ (L i).held) (owe : ¬ (L i).fam.owe) :
    Family initproc (s.setLock .wait none) (Function.update L i ((L i).unlocked .wait)) := by
  refine F.lockStep rfl rfl rfl rfl (fun p self fall => ?_) (fun p q hp hq dead => ?_) fun e p he hw => ?_
  · obtain ⟨-, q, me, locked⟩ := (fall : _ ∧ _)
    obtain rfl : p = q := Thread.proc.inj (self.symm.trans ((P.me i).symm.trans me))
    exact ⟨⟨c, hc.trans self⟩, (List.mem_erase_of_ne (by simp)).mpr locked⟩
  · rcases hp with doze | ⟨self, fall⟩
    · obtain ⟨-, e, also, due⟩ := F.asleep p q doze hq dead
      obtain rfl := K.one also (hc.symm ▸ mem)
      exact owe (hc ▸ due)
    · obtain ⟨calm, -⟩ := (fall : _ ∧ _)
      subst self
      exact (F.knows c p hc mem).calm q (calm q) hq dead
  · by_cases self : Thread.proc p = i
    · rw [self, Function.update_self] at hw
      have once : (L i).held.Nodup := hc ▸ K.nodup c
      exact absurd hw (List.Nodup.not_mem_erase once)
    · rw [Function.update_of_ne self] at hw
      obtain rfl := K.one (he.symm ▸ hw) (hc.symm ▸ mem)
      exact absurd (he.symm.trans hc) self

/-- A CPU leaves thread `i`, which does not hold `wait_lock`, for a thread that does not either. -/
theorem Family.switch (F : Family initproc s L) (K : Locks s L) (hc : s.running c = i) {t : Thread n κ}
    (chan : l.chan = (L i).chan) (child : l.child = (L i).child) (fall : ∀ p, i = .proc p → ¬ l.fam.fall)
    (off : .wait ∉ (L i).held) (on : .wait ∉ (Function.update L i l t).held) :
    Family initproc (s.setRunning c t) (Function.update L i l) := by
  have fallen : ∀ p, (Function.update L i l (.proc p)).fam.fall → .proc p ≠ i ∧ (L (.proc p)).fam.fall := by
    intro p h
    by_cases self : Thread.proc p = i
    · rw [self, Function.update_self] at h
      exact absurd h (fall p self.symm)
    · rw [Function.update_of_ne self] at h
      exact ⟨self, h⟩
  have doze : ∀ p, Dozes (s.setRunning c t) (Function.update L i l) p → Dozes s L p := by
    rintro p (h | h)
    · exact Or.inl h
    · exact Or.inr (fallen p h).2
  have elsewhere : ∀ e, e ≠ c → (s.setRunning c t).running e = s.running e :=
    fun e he => Function.update_of_ne he _ _
  have others : ∀ e, e ≠ c → Function.update L i l (s.running e) = L (s.running e) := by
    intro e he
    refine Function.update_of_ne (fun same => he ?_) _ _
    exact K.inj e c (same.trans hc.symm)
  refine ⟨fun p hp => ?_, F.still, F.parents, F.orphan, F.init, fun u p b hu q hq => ?_, fun p hp => ?_,
    fun p q hp hq dead => ?_, fun e p he hw => ?_⟩
  · rw [field_update (f := Gh.chan) chan]
    exact F.chan p hp
  · rw [field_update (f := Gh.child) child] at hu
    exact F.young u p b hu q hq
  · obtain ⟨away, old⟩ := fallen p hp
    obtain ⟨⟨e, he⟩, mem⟩ := F.falls p old
    have far : e ≠ c := by
      rintro rfl
      exact away (he.symm.trans hc)
    rw [Function.update_of_ne away]
    exact ⟨⟨e, (elsewhere e far).trans he⟩, mem⟩
  · obtain ⟨init, e, mem, due⟩ := F.asleep p q (doze p hp) hq dead
    have far : e ≠ c := by
      rintro rfl
      exact off (hc ▸ mem)
    refine ⟨init, e, ?_⟩
    rw [elsewhere e far, others e far]
    exact ⟨mem, due⟩
  · have far : e ≠ c := by
      rintro rfl
      have here : t = .proc p := by simpa [St.setRunning] using he
      exact on (here ▸ hw)
    have there := (elsewhere e far).symm.trans he
    have same : Function.update L i l (.proc p) = L (.proc p) := there ▸ others e far
    rw [same] at hw
    exact (F.knows e p there hw).mono (by rw [same]; exact ⟨rfl, rfl, rfl, rfl⟩)
      (fun q hq => Or.inl (same ▸ hq)) (fun _ => rfl) doze fun _ => id

/-- Reading says nothing about who sleeps. -/
theorem Gh.learn_stays (l : Gh n κ) (p : Fin n) (x : Proc n) :
    (l.learn p x).fam.fall = l.fam.fall ∧ (l.learn p x).fam.owe = l.fam.owe ∧
      (l.learn p x).fam.awake = l.fam.awake := by
  rw [Gh.learn_fam]
  split
  · split <;> exact ⟨rfl, rfl, rfl⟩
  · exact ⟨rfl, rfl, rfl⟩

/-- What is read under `wait_lock` is so. -/
theorem Family.read (F : Family initproc s L) (P : Places s L) (hc : s.running c = i) (p : Fin n) :
    Family initproc s (Function.update L i ((L i).learn p (s.proc p))) := by
  obtain ⟨fall, owe, awake⟩ := (L i).learn_stays p (s.proc p)
  refine F.mono hc rfl (fun _ => id) (fun q hq => ?_) F.still (fun _ => rfl) (fun _ => id)
    (fun q b hq f hf => F.young i q b hq f hf) (by rw [fall]; exact id) (fun q self h => ?_)
    (fun q asleep on => Or.inl ⟨asleep, on⟩) (fun _ => id) Iff.rfl (fun _ => by rw [owe]; exact id)
    fun q self held old doze => ?_
  · rw [field_update (f := Gh.chan) (by rfl)]
    exact F.chan q hq
  · subst self
    rw [fall] at h
    exact (F.falls q h).2
  · subst self
    have me := P.me (.proc q)
    obtain ⟨f, hf⟩ : ∃ f, f = (L (.proc q)).fam.learn q p (s.proc p) (.proc p ∈ (L (.proc q)).held) := ⟨_, rfl⟩
    have fam : (Function.update L (.proc q) ((L (.proc q)).learn p (s.proc p)) (.proc q)).fam = f := by
      rw [Function.update_self, Gh.learn_fam, me]
      exact (if_pos held).trans hf.symm
    refine ⟨fun m hm => ?_, fun m hm => ?_, fun m hm h => ?_, fun m hm child => ?_, fun o ho => ?_⟩
    all_goals rw [fam, hf] at *
    · simp only [Fam.learn] at hm
      split at hm
      · rcases hm with rfl | hm
        · assumption
        · exact old.kids m hm
      · exact old.kids m hm
    · simp only [Fam.learn] at hm
      split at hm
      · exact old.clear m hm
      · rcases hm with rfl | hm
        · assumption
        · exact old.clear m hm
    · exact old.awake m hm (doze m h)
    · simp only [Fam.learn] at hm
      split at hm
      · exact old.calm m hm child
      · rcases hm with rfl | hm
        · rename_i unlike
          by_contra dead
          exact unlike ⟨child, fun both => both.2 dead⟩
        · exact old.calm m hm child
    · simp only [Fam.learn] at ho
      split at ho
      · obtain rfl := Option.some.inj ho
        rename_i self
        rw [self]
      · exact old.parent o ho

/-- A process that executes sets its channel. -/
theorem Family.setChan (F : Family initproc s L) {p : Fin n} {chan : Option (Chan n)} (hc : s.running c = .proc p)
    (run : (s.proc p).state = .running) :
    Family initproc (s.setProc p { s.proc p with chan := chan })
      (Function.update L (.proc p) (next initproc (.setChan p chan) (L (.proc p)) ())) := by
  obtain ⟨t, ht⟩ : ∃ t, t = s.setProc p { s.proc p with chan := chan } := ⟨_, rfl⟩
  have at_p : t.proc p = { s.proc p with chan := chan } := by simp [ht, St.setProc]
  have at_q : ∀ q, q ≠ p → t.proc q = s.proc q := fun q hq => by simp [ht, St.setProc, Function.update_of_ne hq]
  have same : ∀ q, (t.proc q).state = (s.proc q).state ∧ (t.proc q).parent = (s.proc q).parent := by
    intro q
    by_cases hq : q = p
    · rw [hq, at_p]
      exact ⟨rfl, rfl⟩
    · rw [at_q q hq]
      exact ⟨rfl, rfl⟩
  have state : ∀ q, (t.proc q).state = (s.proc q).state := fun q => (same q).1
  rw [← ht]
  refine F.mono hc (by rw [ht]; rfl) (fun q => by rw [state]; exact id) (fun q hq => ?_) (fun q hq => ?_)
    (fun q => (same q).2) (fun q => by rw [state]; exact id) (fun q b hq f hf => F.young _ q b hq f hf) id
    (fun q self h => ?_) (fun q asleep on => Or.inl ?_) (fun q => by rw [state]; exact id) Iff.rfl (fun _ => id)
    fun q self _ old doze => ?_
  · by_cases self : q = p
    · rw [self, at_p, Function.update_self]
      rfl
    · rw [at_q q self] at hq ⊢
      rw [Function.update_of_ne fun e => self (Thread.proc.inj e)]
      exact F.chan q hq
  · have self : q ≠ p := by
      rintro rfl
      rw [state, run] at hq
      rcases hq with h | h <;> cases h
    rw [at_q q self] at hq ⊢
    exact F.still q hq
  · obtain rfl := Thread.proc.inj self
    exact (F.falls p h).2
  · have self : q ≠ p := by
      rintro rfl
      rw [state, run] at asleep
      cases asleep
    rw [at_q q self] at asleep on
    exact ⟨asleep, on⟩
  · have here : ∀ u, (Function.update L (.proc p) (next initproc (.setChan p chan) (L (.proc p)) ()) u).fam =
        (L u).fam := field_update (by rfl)
    refine old.mono ?_ (fun m hm => Or.inl ?_) (fun m => (same m).2) doze fun m => by rw [state]; exact id
    · rw [here]
      exact ⟨rfl, rfl, rfl, rfl⟩
    · rwa [here] at hm

omit [DecidableEq κ] in
theorem Family.congr (F : Family initproc s L) (running : s'.running = s.running) (proc : s'.proc = s.proc) :
    Family initproc s' L := by
  obtain ⟨chan, still, parents, orphan, init, young, falls, asleep, knows⟩ := F
  refine ⟨?_, ?_, ?_, ?_, ?_, ?_, ?_, ?_, fun e p he hw => ?_⟩ <;> try simp only [Dozes, running, proc]
  all_goals try assumption
  obtain ⟨kids, clear, awake, calm, parent⟩ := knows e p (running ▸ he) hw
  refine ⟨?_, ?_, ?_, ?_, ?_⟩ <;> simp only [Dozes, proc] <;> assumption

/-- A sleeping process is made runnable, or nothing happens. -/
theorem Family.rouse (F : Family initproc s L) (hc : s.running c = i) {p : Fin n} {x : Proc n}
    (chan : x.chan = (s.proc p).chan) (parent : x.parent = (s.proc p).parent)
    (state : x.state = (s.proc p).state ∨ (s.proc p).state = .sleeping ∧ x.state = .runnable)
    (lchan : l.chan = (L i).chan) (held : l.held = (L i).held) (child : l.child = (L i).child)
    (fall : l.fam.fall → (L i).fam.fall) (owe : Dozes (s.setProc p x) (Function.update L i l) initproc →
      (L i).fam.owe → l.fam.owe)
    (fam : l.fam.kids = (L i).fam.kids ∧ l.fam.clear = (L i).fam.clear ∧ l.fam.calm = (L i).fam.calm ∧
      l.fam.parent = (L i).fam.parent)
    (awake : ∀ q ∈ l.fam.awake, q ∈ (L i).fam.awake ∨ ¬ Dozes (s.setProc p x) (Function.update L i l) q) :
    Family initproc (s.setProc p x) (Function.update L i l) := by
  have young : ∀ p b, l.child = some (p, b) → ∀ q, (s.proc p).parent = some q → i = .proc q :=
    fun p b hp q hq => F.young i p b (child ▸ hp) q hq
  rcases state with same | ⟨asleep, runnable⟩
  · refine F.poke hc chan parent (by rw [same]; exact id) (by rw [same]; exact F.chan p)
      (by rw [same]; exact F.still p) (by rw [same]; exact id) (fun h on => ?_) (by rw [same]; exact id) lchan held
      young fall owe fam awake
    exact Or.inl ⟨same.symm.trans h, chan.symm.trans on⟩
  · have live : Live (s.proc p).state := Or.inl asleep
    refine F.poke hc chan parent (fun _ => ?_) (fun _ => F.chan p live) ?_ ?_ ?_ ?_ lchan held
      young fall owe fam awake
    · rw [runnable]
      exact Or.inr (Or.inl rfl)
    all_goals rw [runnable]
    all_goals nofun

/-- One round of `wakeup`: nobody who holds his lock is concerned. -/
theorem Family.wakeOne (F : Family initproc s L) (K : Locks s L) (hc : s.running c = i) {p : Fin n}
    {chan : Option (Chan n)} (free : s.lock (.proc p) = none) :
    Family initproc (s.setProc p ((s.proc p).woken chan))
      (Function.update L i (next initproc (.wakeOne chan p) (L i) ())) := by
  have state : ((s.proc p).woken chan).state = (s.proc p).state ∨
      (s.proc p).state = .sleeping ∧ ((s.proc p).woken chan).state = .runnable := by
    rw [Proc.woken]
    split
    · exact Or.inr ⟨(by assumption : _ ∧ _).1, rfl⟩
    · exact Or.inl rfl
  have rest : ((s.proc p).woken chan).chan = (s.proc p).chan ∧
      ((s.proc p).woken chan).parent = (s.proc p).parent := by
    rw [Proc.woken]
    split <;> exact ⟨rfl, rfl⟩
  by_cases mine : chan = some (.proc p)
  · have after : ¬ Dozes (s.setProc p ((s.proc p).woken chan))
        (Function.update L i (next initproc (.wakeOne chan p) (L i) ())) p := by
      rintro (⟨asleep, on⟩ | fall)
      · simp only [St.setProc, Function.update_self, Proc.woken] at asleep on
        split at asleep
        · cases asleep
        · rename_i unlike
          rw [if_neg unlike] at on
          exact unlike ⟨asleep, on.trans mine.symm⟩
      · have same : (next initproc (.wakeOne chan p) (L i) ()).fam.fall = (L i).fam.fall := by
          simp only [next, if_pos mine]
        rw [field_update (f := fun l : Gh n κ => l.fam.fall) same] at fall
        obtain ⟨⟨e, he⟩, mem⟩ := F.falls p fall
        exact K.none free e (he.symm ▸ mem)
    have step : next initproc (.wakeOne chan p) (L i) () = { L i with
        fam := { (L i).fam with awake := insert p (L i).fam.awake, owe := (L i).fam.owe ∧ p ≠ initproc } } :=
      if_pos mine
    rw [step] at after ⊢
    refine F.rouse hc rest.1 rest.2 state rfl rfl rfl id (fun dozes due => ⟨due, ?_⟩) ⟨rfl, rfl, rfl, rfl⟩ ?_
    · rintro rfl
      exact after dozes
    · rintro q (rfl | hq)
      · exact Or.inr after
      · exact Or.inl hq
  · rw [show next initproc (.wakeOne chan p) (L i) () = L i from if_neg mine]
    exact F.rouse hc rest.1 rest.2 state rfl rfl rfl id (fun _ => id) ⟨rfl, rfl, rfl, rfl⟩ fun q hq => Or.inl hq

theorem Inv.family_step (h : Inv initproc tr s L) (ok : pre initproc a (L i)) (hc : s.running c = i)
    (hx : cpuExec c a s r s') : Family initproc s' (Function.update L i (next initproc a (L i) r)) := by
  obtain ⟨K, P, S, F, -⟩ := h
  have falls : ∀ p, i = .proc p → (L i).fam.fall → .proc p ∈ (L i).held := by
    rintro p rfl fall
    exact (F.falls p fall).2
  have field : ∀ (p : Fin n) (x : Proc n), x.state = (s.proc p).state → x.chan = (s.proc p).chan →
      x.parent = (s.proc p).parent → ∀ q, ((s.setProc p x).proc q).state = (s.proc q).state ∧
        ((s.setProc p x).proc q).chan = (s.proc q).chan ∧ ((s.setProc p x).proc q).parent = (s.proc q).parent := by
    intro p x state chan parent q
    by_cases hq : q = p
    · subst hq
      simp [St.setProc, state, chan, parent]
    · simp [St.setProc, Function.update_of_ne hq]
  have runs : ∀ p, i = .proc p → (L i).own = .run → (s.proc p).state = .running := by
    rintro p rfl own
    rcases S.executes c p hc with ⟨-, run⟩ | ⟨st, set, -⟩
    · exact run
    · exact absurd (own.symm.trans set) (by simp)
  cases a with
  | lock lk =>
    obtain ⟨free, rfl⟩ := hx
    by_cases w : lk = .wait
    · subst w
      exact F.lockWait K free
    · have fam : ((L i).locked lk).fam = (L i).fam := if_neg w
      refine F.keep hc rfl (fun _ => ⟨rfl, rfl, rfl⟩) rfl rfl fam (fun p self fall => ?_) ?_
      · rw [show (next initproc (.lock lk) (L i) r).fam = (L i).fam from fam] at fall
        exact List.mem_cons_of_mem _ (falls p self fall)
      · exact List.mem_cons.trans (or_iff_right (Ne.symm w))
  | unlock lk =>
    cases hx
    obtain ⟨mem, -, -, releases⟩ := ok
    by_cases w : lk = .wait
    · subst w
      exact F.unlockWait K P hc mem releases
    · have fam : ((L i).unlocked lk).fam = (L i).fam := if_neg w
      refine F.keep hc rfl (fun _ => ⟨rfl, rfl, rfl⟩) rfl rfl fam (fun p here fall => ?_) ?_
      · rw [show (next initproc (.unlock lk) (L i) r).fam = (L i).fam from fam] at fall
        have other : Lock.proc p ≠ lk := by
          rintro rfl
          exact (releases.1 ((P.me i).trans here)).2 fall
        exact (List.mem_erase_of_ne other).mpr (falls p here fall)
      · exact List.mem_erase_of_ne (Ne.symm w)
  | resume p =>
    cases hx
    obtain ⟨⟨d, me⟩, held, -, -, pick, -⟩ := ok
    obtain rfl : i = .cpu d := (P.me i).symm.trans me
    obtain rfl := K.home c d hc
    obtain ⟨-, state, away⟩ := S.picks d p pick
    refine F.switch K hc rfl rfl (fun q h => absurd h (by simp)) (by rw [held]; simp) ?_
    rw [Function.update_of_ne (by simp), (S.parked p away (Or.inr (Or.inr state))).held]
    simp
  | suspend =>
    cases hx
    obtain ⟨p, st, me, held, -⟩ := ok
    obtain rfl : i = .proc p := (P.me i).symm.trans me
    refine F.switch K hc rfl rfl (fun _ _ h => h) (by rw [held]; simp) ?_
    rw [Function.update_of_ne (by simp), (P.busy c p hc).2.held]
    simp
  | read p =>
    obtain ⟨rfl, rfl⟩ := hx
    exact F.read P hc p
  | setState p st =>
    cases hx
    obtain ⟨me, mem, own, choice⟩ := ok
    obtain rfl : i = .proc p := (P.me i).symm.trans me
    have live : Live (s.proc p).state := Or.inr (Or.inr (runs p rfl own))
    have young : ∀ q b, (L (.proc p)).child = some (q, b) → ∀ f, (s.proc q).parent = some f →
        (Thread.proc p : Thread n κ) = .proc f := fun q b hq f hf => F.young _ q b hq f hf
    rcases choice with rfl | ⟨rfl, fall⟩ | ⟨rfl, may⟩
    · exact F.poke hc rfl rfl (fun _ => Or.inr (Or.inl rfl)) (fun _ => F.chan p live) (by simp) (by simp) (by simp)
        (by simp) rfl rfl
        young False.elim (fun _ => id) ⟨rfl, rfl, rfl, rfl⟩ fun q hq => Or.inl hq
    · refine F.poke hc rfl rfl (fun _ => Or.inl rfl) (fun _ => F.chan p live) (by simp) (by simp) (fun _ on => ?_)
        (by simp) rfl
        rfl young False.elim (fun _ => id) ⟨rfl, rfl, rfl, rfl⟩ fun q hq => Or.inl hq
      exact Or.inr (fall p ((F.chan p live).trans on))
    · exact F.exit K hc may
  | setRunning p =>
    cases hx
    obtain ⟨-, -, -, -, x, seen, rfl, runnable⟩ := ok
    have live : Live (s.proc x.slot).state := Or.inr (Or.inl ((S.sees hc seen).2.2.1.trans runnable))
    exact F.poke hc rfl rfl (fun _ => Or.inr (Or.inr rfl)) (fun _ => F.chan _ live) (by simp) (by simp) (by simp)
      (by simp) rfl rfl
      (fun q b hq f hf => F.young i q b hq f hf) id (fun _ => id) ⟨rfl, rfl, rfl, rfl⟩ fun q hq => Or.inl hq
  | setRunnable p =>
    cases hx
    obtain ⟨child, -⟩ := ok
    obtain ⟨used, fresh⟩ := S.child i p true child
    refine F.poke hc rfl rfl (fun _ => Or.inr (Or.inl rfl)) (fun _ => ?_) (by simp) (by simp) (by simp) (by simp) rfl rfl
      (by simp [next]) id
      (fun _ => id) ⟨rfl, rfl, rfl, rfl⟩ fun q hq => Or.inl hq
    rw [fresh rfl, F.still p (Or.inr used)]
    rfl
  | claim p =>
    obtain ⟨rfl, rfl⟩ := hx
    obtain ⟨-, -, -, -, x, seen, rfl, unused⟩ := ok
    have state := (S.sees hc seen).2.2.1.trans unused
    refine Family.congr (s := s.setProc x.slot { s.proc x.slot with
      pid := s.nextpid, state := .used, priority := 5 }) (F.poke hc rfl rfl (fun live => ?_) (fun live => ?_)
      (fun _ => F.still _ (Or.inl state)) (by simp) (by simp) (by simp) rfl rfl (fun q b hq f hf => ?_) id (fun _ => id)
      ⟨rfl, rfl, rfl, rfl⟩ fun q hq => Or.inl hq) rfl rfl
    · exact absurd live (not_live (Or.inl state))
    · exact absurd live (not_live (Or.inr (Or.inl rfl)))
    · obtain ⟨rfl, -⟩ := Prod.mk.inj (Option.some.inj hq)
      rw [F.orphan _ state] at hf
      cases hf
  | freeproc p =>
    cases hx
    obtain ⟨mem, which⟩ := ok
    rcases which with ⟨b, child⟩ | ⟨-, wait, -, -, -, x, seen, rfl, zombie⟩
    · refine F.freeproc (Or.inl (S.child i p b child).1) (S.idle_of_free K hc mem (Or.inl ⟨b, child⟩)) ?_
      exact fun e q _ _ kid => (F.young i p b child q kid).symm
    · refine F.freeproc (Or.inr ((S.sees hc seen).2.2.1.trans zombie))
        (S.idle_of_free K hc mem (Or.inr ⟨x, seen, rfl, zombie⟩)) fun e q he hw _ => ?_
      obtain rfl := K.one (he.symm ▸ hw) (hc.symm ▸ wait)
      exact he.symm.trans hc
  | setChan p chan =>
    cases hx
    obtain ⟨me, -, own, -⟩ := ok
    obtain rfl : i = .proc p := (P.me i).symm.trans me
    exact F.setChan hc (runs p rfl own)
  | setParent p q =>
    cases hx
    obtain ⟨wait, own, which⟩ := ok
    rcases which with ⟨child, m, rfl, me⟩ | ⟨child, rfl, kid, m, notInit, me⟩
    · obtain rfl : i = .proc m := (P.me i).symm.trans me
      have run := runs m rfl own
      have used := (S.child _ p true child).1
      have other : m ≠ p := by
        rintro rfl
        exact absurd (used.symm.trans run) (by decide)
      have step : next initproc (.setParent p (some m)) (L (.proc m)) r = { L (.proc m) with
          fam := { (L (.proc m)).fam with clear := (L (.proc m)).fam.clear \ {p} } } :=
        if_neg (by rw [child]; simp)
      rw [step]
      refine F.setParent K hc wait (Or.inr (Or.inr run)) (by rw [used]; decide) rfl rfl rfl rfl (fun t b ht => ?_)
        (fun dead => absurd (used.symm.trans dead) (by decide)) id fun old => ?_
      · exact S.only t _ p b true ht child
      · refine ⟨fun _ h _ => h, fun _ => rfl, fun _ h _ => h.1, fun h => absurd rfl h.2, rfl, rfl, fun _ => ?_,
          fun _ h => ⟨other, h⟩⟩
        rw [used]
        decide
    · obtain rfl : i = .proc m := (P.me i).symm.trans me
      have father := (F.knows c m hc wait).kids p kid
      have used : (s.proc p).state ≠ .unused := by
        intro unused
        rw [F.orphan p unused] at father
        cases father
      have step : next initproc (.setParent p (some initproc)) (L (.proc m)) r = { L (.proc m) with
          fam := { (L (.proc m)).fam with
            kids := (L (.proc m)).fam.kids \ {p}, clear := insert p (L (.proc m)).fam.clear
            parent := none, owe := True } } := if_pos child
      rw [step]
      refine F.setParent K hc wait F.init used rfl rfl rfl rfl (fun t b ht => ?_) (fun _ => ⟨rfl, trivial⟩)
        (fun _ => trivial) fun old => ?_
      · obtain rfl := F.young t p b ht m father
        rw [child] at ht
        cases ht
      · exact ⟨fun _ h _ => h.1, fun h => absurd rfl h.2, fun _ h ne => h.resolve_left ne,
          fun _ => Ne.symm notInit, rfl, rfl, fun e => absurd e.symm notInit, (by simp)⟩
  | wakeOne chan p =>
    obtain ⟨free, rfl⟩ := hx
    exact F.wakeOne K hc free
  | killOne pid p =>
    obtain ⟨-, -, rfl⟩ := hx
    split
    · refine F.rouse hc rfl rfl ?_ rfl rfl rfl id (fun _ => id) ⟨rfl, rfl, rfl, rfl⟩ fun q hq => Or.inl hq
      simp only [Proc.kill]
      split
      · exact Or.inr ⟨by assumption, rfl⟩
      · exact Or.inl rfl
    · exact F.keep hc rfl (fun _ => ⟨rfl, rfl, rfl⟩) rfl rfl rfl falls Iff.rfl
  | priorityOne pid priority p =>
    obtain ⟨-, -, rfl⟩ := hx
    split
    · exact F.keep hc rfl (field p _ rfl rfl rfl) rfl rfl rfl falls Iff.rfl
    · exact F.keep hc rfl (fun _ => ⟨rfl, rfl, rfl⟩) rfl rfl rfl falls Iff.rfl
  | setKilled p | setPriority p _ | setXstate p _ =>
    cases hx
    exact F.keep hc rfl (field p _ rfl rfl rfl) rfl rfl rfl falls Iff.rfl
  | setContext | panic => exact hx.elim
  | _ =>
    exact F.keep hc (cpuExec_running hx rfl) (fun q => by rw [cpuExec_proc hx rfl]; exact ⟨rfl, rfl, rfl⟩)
      (next_chan _ _ (by simp)) (next_child _ _ rfl) (next_fam _ _ rfl)
      (fun p self fall => by rw [next_fam _ _ rfl] at fall; rw [next_held _ _ rfl]; exact falls p self fall)
      (by rw [next_held _ _ rfl])

/-! ## The record -/

/-- Events that say nothing about zombies and `wait`. -/
def Ev.Silent (e : Ev n κ) : Prop :=
  (∀ f, e.pend f = f) ∧ (∀ f, e.owe f = f) ∧ ∀ f g, e.Fits f g

omit [DecidableEq κ] in
theorem pending_snoc (tr : List (Ev n κ)) (e : Ev n κ) : pending (tr ++ [e]) = e.pend (pending tr) := by
  simp [pending]

omit [DecidableEq κ] in
theorem owed_snoc (tr : List (Ev n κ)) (e : Ev n κ) : owed (tr ++ [e]) = e.owe (owed tr) := by
  simp [owed]

omit [DecidableEq κ] in
theorem Orderly.silent (h : Orderly tr) {o : List (Ev n κ)} (quiet : ∀ e ∈ o, e.Silent) :
    Orderly (tr ++ o) ∧ pending (tr ++ o) = pending tr ∧ owed (tr ++ o) = owed tr := by
  induction o using List.reverseRecOn with
  | nil => simpa using h
  | append_singleton o e ih =>
    obtain ⟨orderly, pend, owe⟩ := ih fun x hx => quiet x (List.mem_append_left _ hx)
    obtain ⟨keeps, owes, fits⟩ := quiet e (by simp)
    rw [← List.append_assoc]
    refine ⟨orderly.append (fits _ _), ?_, ?_⟩
    · rw [pending_snoc, keeps, pend]
    · rw [owed_snoc, owes, owe]

/-- Steps that make no zombie, free none and end no `wait`. -/
theorem Record.quiet (R : Record tr s L) {o : List (Ev n κ)} (silent : ∀ e ∈ o, e.Silent)
    (corpse : ∀ p, (s'.proc p).corpse = (s.proc p).corpse)
    (live : ∀ p, Live (s.proc p).state → Live (s'.proc p).state) (reaped : l.reaped = (L i).reaped)
    (born : ∀ t p b, (Function.update L i l t).child = some (p, b) → .alloc p (s'.proc p).pid ∈ tr ++ o)
    (named : ∀ pid, l.newpid = some pid → ∃ p, .alloc p pid ∈ tr)
    (forks : ∀ me pid, .forked me pid ∈ o → ∃ p, .alloc p pid ∈ tr) :
    Record (tr ++ o) s' (Function.update L i l) := by
  obtain ⟨orderly, pend, owe⟩ := R.orderly.silent silent
  have more : ∀ pid, (∃ p, .alloc p pid ∈ tr) → ∃ p, .alloc p pid ∈ tr ++ o :=
    fun pid ⟨p, hp⟩ => ⟨p, List.mem_append_left _ hp⟩
  refine ⟨orderly, fun p => ?_, fun p => ?_, fun p dead => ?_, born, fun t pid ht => ?_, fun me pid h => ?_⟩
  · rw [pend, corpse, R.pend]
  · rw [owe, R.owed, field_update (f := Gh.reaped) reaped]
  · rw [field_update (f := Gh.reaped) reaped]
    exact R.clean p fun alive => dead (live p alive)
  · apply more
    by_cases self : t = i
    · subst self
      rw [Function.update_self] at ht
      exact named pid ht
    · rw [Function.update_of_ne self] at ht
      exact R.named t pid ht
  · apply more
    rcases List.mem_append.mp h with old | new
    · exact R.forks me pid old
    · exact forks me pid new

/-- Steps that change no pid, and start no child. -/
theorem Record.keep (R : Record tr s L) {o : List (Ev n κ)} (silent : ∀ e ∈ o, e.Silent)
    (corpse : ∀ p, (s'.proc p).corpse = (s.proc p).corpse)
    (live : ∀ p, Live (s.proc p).state → Live (s'.proc p).state)
    (pid : ∀ p, (s'.proc p).pid = (s.proc p).pid) (reaped : l.reaped = (L i).reaped)
    (child : l.child = none ∨ l.child = (L i).child) (newpid : l.newpid = (L i).newpid)
    (forks : ∀ me pid, .forked me pid ∈ o → ∃ p, .alloc p pid ∈ tr) :
    Record (tr ++ o) s' (Function.update L i l) := by
  refine R.quiet silent corpse live reaped (fun t p b ht => ?_) (fun m hm => R.named i m (newpid ▸ hm)) forks
  rw [pid]
  refine List.mem_append_left _ ?_
  by_cases self : t = i
  · subst self
    rw [Function.update_self] at ht
    rcases child with none | same
    · rw [none] at ht
      cases ht
    · exact R.born t p b (same ▸ ht)
  · rw [Function.update_of_ne self] at ht
    exact R.born t p b ht

/-- A process becomes a zombie. -/
theorem Record.exit (R : Record tr s L) {p : Fin n} (run : (s.proc p).state = .running)
    (reaped : (L (.proc p)).reaped = none) :
    Record (tr ++ [.exit p (s.proc p).pid (s.proc p).xstate]) (s.setProc p { s.proc p with state := .zombie })
      (Function.update L (.proc p) (next initproc (.setState p .zombie) (L (.proc p)) ())) := by
  have none : pending tr p = none := by
    rw [R.pend, Proc.corpse, if_neg (by rw [run]; decide)]
  have same : ∀ u, (Function.update L (.proc p) (next initproc (.setState p .zombie) (L (.proc p)) ()) u).reaped =
      (L u).reaped := field_update (by rfl)
  have pids : ∀ q, ((s.setProc p { s.proc p with state := .zombie }).proc q).pid = (s.proc q).pid := by
    intro q
    by_cases self : q = p
    · subst self
      simp [St.setProc]
    · simp [St.setProc, Function.update_of_ne self]
  refine ⟨R.orderly.append none, fun q => ?_, fun q => ?_, fun q dead => ?_, fun t q b ht => ?_, fun t pid ht => ?_,
    fun me pid h => ?_⟩
  · rw [pending_snoc]
    by_cases self : q = p
    · subst self
      simp [Ev.pend, St.setProc, Proc.corpse]
    · simp [Ev.pend, St.setProc, Function.update_of_ne self, R.pend]
  · rw [owed_snoc, same]
    exact R.owed q
  · rw [same]
    by_cases self : q = p
    · subst self
      exact reaped
    · simp only [St.setProc, Function.update_of_ne self] at dead
      exact R.clean q dead
  · rw [pids]
    rw [field_update (f := Gh.child) (by rfl)] at ht
    exact List.mem_append_left _ (R.born t q b ht)
  · rw [field_update (f := Gh.newpid) (by rfl)] at ht
    obtain ⟨q, hq⟩ := R.named t pid ht
    exact ⟨q, List.mem_append_left _ hq⟩
  · obtain ⟨q, hq⟩ := R.forks me pid (by simpa using h)
    exact ⟨q, List.mem_append_left _ hq⟩

/-- `wait` frees a zombie. -/
theorem Record.reap (R : Record tr s L) {m p : Fin n} {x : Seen n} (child : (L (.proc m)).child = none)
    (reaped : (L (.proc m)).reaped = none) (seen : (L (.proc m)).seen = some x) (slot : x.slot = p)
    (zombie : x.state = .zombie) (now : x.Holds s) (father : (s.proc p).parent = some m)
    (live : Live (s.proc m).state) (strange : ∀ t b, (L t).child ≠ some (p, b)) :
    Record (tr ++ [.reap (.proc m) p (s.proc p).parent (s.proc p).pid (s.proc p).xstate]) (s.setProc p Proc.freed)
      (Function.update L (.proc m) (next initproc (.freeproc p) (L (.proc m)) ())) := by
  obtain ⟨state, pid, xstate⟩ := now
  rw [slot] at state pid xstate
  have corpse : (s.proc p).corpse = some ((s.proc p).pid, (s.proc p).xstate) := if_pos (state.trans zombie)
  have fits : pending tr p = some ((s.proc p).pid, (s.proc p).xstate) := by rw [R.pend, corpse]
  have other : m ≠ p := by
    rintro rfl
    exact not_live (Or.inr (Or.inr (state.trans zombie))) live
  obtain ⟨U, hU⟩ : ∃ U, U = Function.update L (.proc m) (next initproc (.freeproc p) (L (.proc m)) ()) := ⟨_, rfl⟩
  have mine : (U (.proc m)).reaped = some ((s.proc p).pid, (s.proc p).xstate) := by
    rw [hU, Function.update_self]
    simp only [next, if_pos child, seen, Option.map_some]
    rw [pid, xstate]
  have theirs : ∀ q, q ≠ m → (U (.proc q)).reaped = (L (.proc q)).reaped := by
    intro q hq
    rw [hU, Function.update_of_ne fun e => hq (Thread.proc.inj e)]
  rw [← hU]
  refine ⟨R.orderly.append ⟨fits, m, rfl, father, ?_⟩, fun q => ?_, fun q => ?_, fun q dead => ?_, fun t q b ht => ?_,
    fun t pid ht => ?_, fun me pid h => ?_⟩
  · rw [R.owed, reaped]
  · rw [pending_snoc]
    by_cases self : q = p
    · subst self
      simp [Ev.pend, St.setProc, Proc.corpse, Proc.freed]
    · simp [Ev.pend, St.setProc, Function.update_of_ne self, R.pend]
  · rw [owed_snoc]
    by_cases self : q = m
    · subst self
      rw [mine]
      simp [Ev.owe]
    · rw [theirs q self]
      simp [Ev.owe, Function.update_of_ne self, R.owed]
  · have self : q ≠ m := by
      rintro rfl
      simp only [St.setProc, Function.update_of_ne other] at dead
      exact dead live
    rw [theirs q self]
    by_cases here : q = p
    · subst here
      exact R.clean q (not_live (Or.inr (Or.inr (state.trans zombie))))
    · simp only [St.setProc, Function.update_of_ne here] at dead
      exact R.clean q dead
  · have old : (L t).child = some (q, b) := by
      by_cases self : t = .proc m
      · rw [hU, self, Function.update_self] at ht
        cases ht
      · rwa [hU, Function.update_of_ne self] at ht
    have here : q ≠ p := by
      rintro rfl
      exact strange t b old
    simp only [St.setProc, Function.update_of_ne here]
    exact List.mem_append_left _ (R.born t q b old)
  · rw [hU, field_update (f := Gh.newpid) (by rfl)] at ht
    obtain ⟨q, hq⟩ := R.named t pid ht
    exact ⟨q, List.mem_append_left _ hq⟩
  · obtain ⟨q, hq⟩ := R.forks me pid (by simpa using h)
    exact ⟨q, List.mem_append_left _ hq⟩

/-- `wait` returns. -/
theorem Record.waited (R : Record tr s L) {p : Fin n} {pid status : Int}
    (reaped : (L (.proc p)).reaped = some (pid, status)) :
    Record (tr ++ [.waited p pid status]) s
      (Function.update L (.proc p) (next initproc (.waited p pid status) (L (.proc p)) ())) := by
  obtain ⟨U, hU⟩ : ∃ U, U = Function.update L (.proc p) (next initproc (.waited p pid status) (L (.proc p)) ()) :=
    ⟨_, rfl⟩
  have mine : (U (.proc p)).reaped = none := by
    rw [hU, Function.update_self]
    rfl
  have theirs : ∀ q, q ≠ p → (U (.proc q)).reaped = (L (.proc q)).reaped := by
    intro q hq
    rw [hU, Function.update_of_ne fun e => hq (Thread.proc.inj e)]
  rw [← hU]
  refine ⟨R.orderly.append ((R.owed p).trans reaped), fun q => ?_, fun q => ?_, fun q dead => ?_,
    fun t q b ht => ?_, fun t pid ht => ?_, fun me pid h => ?_⟩
  · rw [pending_snoc]
    exact R.pend q
  · rw [owed_snoc]
    by_cases self : q = p
    · subst self
      rw [mine]
      simp [Ev.owe]
    · rw [theirs q self]
      simp [Ev.owe, Function.update_of_ne self, R.owed]
  · by_cases self : q = p
    · subst self
      exact mine
    · rw [theirs q self]
      exact R.clean q dead
  · rw [hU, field_update (f := Gh.child) (by rfl)] at ht
    exact List.mem_append_left _ (R.born t q b ht)
  · rw [hU, field_update (f := Gh.newpid) (by rfl)] at ht
    obtain ⟨q, hq⟩ := R.named t pid ht
    exact ⟨q, List.mem_append_left _ hq⟩
  · obtain ⟨q, hq⟩ := R.forks me pid (by simpa using h)
    exact ⟨q, List.mem_append_left _ hq⟩

/-- The record of one process changes, but not its pid; it is no zombie before and after. -/
theorem Record.poke (R : Record tr s L) {o : List (Ev n κ)} {p : Fin n} {x : Proc n} (silent : ∀ e ∈ o, e.Silent)
    (corpse : x.corpse = (s.proc p).corpse) (live : Live (s.proc p).state → Live x.state)
    (pid : x.pid = (s.proc p).pid) (reaped : l.reaped = (L i).reaped)
    (child : l.child = none ∨ l.child = (L i).child) (newpid : l.newpid = (L i).newpid)
    (forks : ∀ me pid, .forked me pid ∈ o → ∃ p, .alloc p pid ∈ tr) :
    Record (tr ++ o) (s.setProc p x) (Function.update L i l) := by
  have cases : ∀ (P : Proc n → Proc n → Prop), P x (s.proc p) → (∀ y, P y y) →
      ∀ q, P ((s.setProc p x).proc q) (s.proc q) := by
    intro P here refl q
    by_cases self : q = p
    · subst self
      simpa [St.setProc] using here
    · simpa [St.setProc, Function.update_of_ne self] using refl _
  exact R.keep silent (cases (fun y z => y.corpse = z.corpse) corpse fun _ => rfl)
    (cases (fun y z => Live z.state → Live y.state) live fun _ => id)
    (cases (fun y z => y.pid = z.pid) pid fun _ => rfl) reaped child newpid forks

theorem corpse_none {x : Proc n} (h : x.state ≠ .zombie) : x.corpse = none := if_neg h

theorem Inv.record_step (h : Inv initproc tr s L) (ok : pre initproc a (L i)) (hc : s.running c = i)
    (hx : cpuExec c a s r s') :
    Record (tr ++ obs i a s) s' (Function.update L i (next initproc a (L i) r)) := by
  obtain ⟨K, P, S, F, R⟩ := h
  have runs : ∀ p, i = .proc p → (L i).own = .run → (s.proc p).state = .running := by
    rintro p rfl own
    rcases S.executes c p hc with ⟨-, run⟩ | ⟨st, set, -⟩
    · exact run
    · exact absurd (own.symm.trans set) (by simp)
  have nothing : ∀ e ∈ ([] : List (Ev n κ)), e.Silent := by simp
  have unforked : ∀ me pid, (.forked me pid : Ev n κ) ∈ [] → ∃ p, .alloc p pid ∈ tr := by simp
  cases a with
  | setState p st =>
    cases hx
    obtain ⟨me, mem, own, choice⟩ := ok
    obtain rfl : i = .proc p := (P.me i).symm.trans me
    have run := runs p rfl own
    have alive : (s.proc p).corpse = none := corpse_none (by rw [run]; decide)
    rcases choice with rfl | ⟨rfl, -⟩ | ⟨rfl, may⟩
    · exact R.poke nothing ((corpse_none (by simp)).trans alive.symm) (fun _ => Or.inr (Or.inl rfl)) rfl rfl
        (Or.inr rfl) rfl unforked
    · exact R.poke nothing ((corpse_none (by simp)).trans alive.symm) (fun _ => Or.inl rfl) rfl rfl
        (Or.inr rfl) rfl unforked
    · exact R.exit run may.2.2.2.1
  | setRunning p =>
    cases hx
    obtain ⟨-, -, -, -, x, seen, rfl, runnable⟩ := ok
    have state := (S.sees hc seen).2.2.1.trans runnable
    exact R.poke nothing ((corpse_none (by simp)).trans (corpse_none (by rw [state]; decide)).symm)
      (fun _ => Or.inr (Or.inr rfl)) rfl rfl (Or.inr rfl) rfl unforked
  | setRunnable p =>
    cases hx
    obtain ⟨child, -⟩ := ok
    have used := (S.child i p true child).1
    exact R.poke nothing ((corpse_none (by simp)).trans (corpse_none (by rw [used]; decide)).symm)
      (fun _ => Or.inr (Or.inl rfl)) rfl rfl (Or.inl rfl) rfl unforked
  | claim p =>
    obtain ⟨rfl, rfl⟩ := hx
    obtain ⟨-, -, -, -, x, seen, rfl, unused⟩ := ok
    have state := (S.sees hc seen).2.2.1.trans unused
    have other : ∀ q, q ≠ x.slot → ((s.setProc x.slot { s.proc x.slot with
        pid := s.nextpid, state := .used, priority := 5 }).proc q) = s.proc q :=
      fun q hq => Function.update_of_ne hq _ _
    refine R.quiet (by simp [obs, Ev.Silent, Ev.pend, Ev.owe, Ev.Fits]) (fun q => ?_) (fun q live => ?_) rfl
      (fun t q b ht => ?_) (fun pid hp => R.named i pid hp) (by simp [obs])
    · by_cases self : q = x.slot
      · subst self
        simp [St.setProc, Proc.corpse, state]
      · exact congrArg Proc.corpse (other q self)
    · have self : q ≠ x.slot := by
        rintro rfl
        exact not_live (Or.inl state) live
      simpa [St.setProc, Function.update_of_ne self] using live
    · by_cases self : q = x.slot
      · subst self
        simp [obs, St.setProc]
      · have old : (L t).child = some (q, b) := by
          by_cases here : t = i
          · rw [here, Function.update_self] at ht
            exact absurd (Prod.mk.inj (Option.some.inj ht)).1.symm self
          · rwa [Function.update_of_ne here] at ht
        have born := R.born t q b old
        rw [← other q self] at born
        exact List.mem_append_left _ born
  | freeproc p =>
    cases hx
    obtain ⟨mem, which⟩ := ok
    rcases which with ⟨b, child⟩ | ⟨child, wait, kid, reaped, ⟨m, me⟩, x, seen, rfl, zombie⟩
    · have used := (S.child i p b child).1
      have dead : ¬ Live (s.proc p).state := not_live (Or.inr (Or.inl used))
      have quiet : obs i (.freeproc p) s = [] := if_neg (by rw [used]; decide)
      have free : ∀ q, q ≠ p → (s.setProc p Proc.freed).proc q = s.proc q := fun q hq => Function.update_of_ne hq _ _
      rw [quiet]
      refine R.quiet nothing (fun q => ?_) (fun q live => ?_) (if_neg (by rw [child]; simp)) (fun t q d ht => ?_)
        (fun pid hp => R.named i pid hp) unforked
      · by_cases self : q = p
        · subst self
          simp [St.setProc, Proc.corpse, Proc.freed, used]
        · rw [free q self]
      · have self : q ≠ p := by
          rintro rfl
          exact dead live
        rwa [free q self]
      · by_cases here : t = i
        · rw [here, Function.update_self] at ht
          cases ht
        · rw [Function.update_of_ne here] at ht
          have self : q ≠ p := by
            rintro rfl
            exact here (S.only t i q d b ht child)
          rw [free q self]
          exact List.mem_append_left _ (R.born t q d ht)
    · obtain rfl : i = .proc m := (P.me i).symm.trans me
      have father := (F.knows c m hc wait).kids _ kid
      obtain ⟨-, -, now⟩ := S.sees hc seen
      have dead := now.1.trans zombie
      rw [show obs (.proc m) (.freeproc x.slot) s = _ from if_pos dead]
      refine R.reap child reaped seen rfl zombie now father (F.parents _ m father) fun t b ht => ?_
      exact absurd (dead.symm.trans (S.child t _ b ht).1) (by decide)
  | waited p pid status =>
    cases hx
    obtain ⟨me, reaped⟩ := ok
    obtain rfl : i = .proc p := (P.me i).symm.trans me
    exact R.waited reaped
  | forked p pid =>
    cases hx
    refine R.keep (by simp [obs, Ev.Silent, Ev.pend, Ev.owe, Ev.Fits]) (fun _ => rfl) (fun _ => id) (fun _ => rfl) rfl
      (Or.inr rfl) rfl fun me m h => ?_
    obtain ⟨rfl, rfl⟩ : me = p ∧ m = pid := by simpa [obs] using h
    exact R.named i m ok
  | read p =>
    obtain ⟨rfl, rfl⟩ := hx
    refine R.quiet nothing (fun _ => rfl) (fun _ => id) rfl (fun t q b ht => ?_) (fun pid hp => ?_) unforked
    · rw [field_update (f := Gh.child) (by rfl)] at ht
      exact List.mem_append_left _ (R.born t q b ht)
    · simp only [next, Gh.learn_newpid] at hp
      split at hp
      · rename_i mine
        obtain ⟨⟨q, b⟩, child, rfl⟩ := Option.map_eq_some_iff.mp mine.1
        obtain rfl := Option.some.inj hp
        exact ⟨q, R.born i q b child⟩
      · exact R.named i pid hp
  | setXstate p status =>
    cases hx
    obtain ⟨me, -, own⟩ := ok
    obtain rfl : i = .proc p := (P.me i).symm.trans me
    have run := runs p rfl own
    exact R.poke nothing ((corpse_none (by simp [run])).trans (corpse_none (by rw [run]; decide)).symm) id rfl rfl
      (Or.inr rfl) rfl unforked
  | setKilled p =>
    cases hx
    exact R.poke (by simp [obs, Ev.Silent, Ev.pend, Ev.owe, Ev.Fits]) rfl id rfl rfl (Or.inr rfl) rfl (by simp [obs])
  | setChan p _ | setPriority p _ =>
    cases hx
    exact R.poke nothing rfl id rfl rfl (Or.inr rfl) rfl unforked
  | setParent p q =>
    cases hx
    exact R.poke nothing rfl id rfl (next_reaped _ _ rfl) (Or.inr (next_child _ _ rfl)) (next_newpid _ _ (by simp))
      unforked
  | wakeOne chan p =>
    obtain ⟨-, rfl⟩ := hx
    refine R.poke nothing ?_ ?_ ?_ (next_reaped _ _ rfl) (Or.inr (next_child _ _ rfl)) (next_newpid _ _ (by simp))
      unforked
    all_goals rw [Proc.woken]; split
    · rename_i asleep
      exact (corpse_none (by simp)).trans (corpse_none (by rw [asleep.1]; decide)).symm
    · rfl
    · exact fun _ => Or.inr (Or.inl rfl)
    · exact id
    · rfl
    · rfl
  | killOne pid p =>
    obtain ⟨-, -, rfl⟩ := hx
    by_cases hit : (s.proc p).pid = pid
    · rw [if_pos hit, show obs i (.killOne pid p) s = _ from if_pos hit]
      refine R.poke (by simp [Ev.Silent, Ev.pend, Ev.owe, Ev.Fits]) ?_ ?_ rfl rfl (Or.inr rfl) rfl (by simp)
      · by_cases asleep : (s.proc p).state = .sleeping <;> simp [Proc.corpse, Proc.kill, asleep]
      · by_cases asleep : (s.proc p).state = .sleeping <;> simp [Live, Proc.kill, asleep]
    · rw [if_neg hit, show obs i (.killOne pid p) s = [] from if_neg hit]
      exact R.keep nothing (fun _ => rfl) (fun _ => id) (fun _ => rfl) rfl (Or.inr rfl) rfl unforked
  | priorityOne pid priority p =>
    obtain ⟨-, -, rfl⟩ := hx
    split
    · exact R.poke nothing rfl id rfl rfl (Or.inr rfl) rfl unforked
    · exact R.keep nothing (fun _ => rfl) (fun _ => id) (fun _ => rfl) rfl (Or.inr rfl) rfl unforked
  | setContext | panic => exact hx.elim
  | _ =>
    exact R.keep nothing (fun q => by rw [cpuExec_proc hx rfl]) (fun q => by rw [cpuExec_proc hx rfl]; exact id)
      (fun q => by rw [cpuExec_proc hx rfl]) (next_reaped _ _ rfl) (Or.inr (next_child _ _ rfl))
      (next_newpid _ _ (by simp)) unforked

/-! ## The parent of a process -/

/-- What a step leaves of process `q`, which lives after it: it has a parent, or it lived before and its
parent is the same, or it is a child that begins to run. -/
def Bound (s : St n κ) (L : Thread n κ → Gh n κ) (q : Fin n) (y : Proc n) : Prop :=
  Live y.state → y.parent ≠ none ∨ (y.parent = (s.proc q).parent ∧ Live (s.proc q).state) ∨
    (L (.proc q)).adopted = false

omit [DecidableEq κ] in
theorem Bound.same {q : Fin n} {y : Proc n} (parent : y.parent = (s.proc q).parent)
    (state : Live y.state → Live (s.proc q).state) : Bound s L q y :=
  fun live => Or.inr (Or.inl ⟨parent, state live⟩)

omit [DecidableEq κ] in
/-- One record is replaced. -/
theorem Bound.setProc {p : Fin n} {x : Proc n} (here : Bound s L p x) (q : Fin n) :
    Bound s L q ((s.setProc p x).proc q) := by
  by_cases self : q = p
  · subst self
    simpa [St.setProc] using here
  · have other : (s.setProc p x).proc q = s.proc q := Function.update_of_ne self _ _
    rw [other]
    exact .same rfl id

theorem Inv.bound (h : Inv initproc tr s L) (ok : pre initproc a (L i)) (hc : s.running c = i)
    (hx : cpuExec c a s r s') (q : Fin n) : Bound s L q (s'.proc q) := by
  obtain ⟨K, P, S, F, -⟩ := h
  cases a with
  | setState p st =>
    cases hx
    obtain ⟨me, -, own, -⟩ := ok
    obtain rfl : i = .proc p := (P.me i).symm.trans me
    refine .setProc ?_ q
    refine .same rfl fun _ => ?_
    rcases S.executes c p hc with ⟨-, run⟩ | ⟨st, set, -⟩
    · exact Or.inr (Or.inr run)
    · exact absurd (own.symm.trans set) nofun
  | setRunning p =>
    cases hx
    obtain ⟨-, -, -, -, x, seen, rfl, runnable⟩ := ok
    refine .setProc ?_ q
    exact .same rfl fun _ => Or.inr (Or.inl ((S.sees hc seen).2.2.1.trans runnable))
  | setRunnable p =>
    cases hx
    have fresh := (S.child i p true ok.1).2 rfl
    refine .setProc (fun _ => Or.inr (Or.inr ?_)) q
    rw [fresh]
    rfl
  | claim p =>
    obtain ⟨rfl, rfl⟩ := hx
    exact .setProc (fun live => absurd live (not_live (Or.inr (Or.inl rfl)))) q
  | freeproc p =>
    cases hx
    exact .setProc (fun live => absurd live (not_live (Or.inl rfl))) q
  | setParent p o =>
    cases hx
    refine .setProc (fun _ => Or.inl ?_) q
    rcases ok.2.2 with ⟨-, m, rfl, -⟩ | ⟨-, rfl, -⟩ <;> nofun
  | wakeOne chan p =>
    obtain ⟨-, rfl⟩ := hx
    refine .setProc ?_ q
    rw [Proc.woken]
    split
    · rename_i asleep
      exact .same rfl fun _ => Or.inl asleep.1
    · exact .same rfl id
  | killOne pid p =>
    obtain ⟨-, -, rfl⟩ := hx
    split
    · refine .setProc ?_ q
      refine .same rfl ?_
      simp only [Proc.kill]
      split
      · rename_i asleep
        exact fun _ => Or.inl asleep
      · exact id
    · exact .same rfl id
  | priorityOne pid priority p =>
    obtain ⟨-, -, rfl⟩ := hx
    split
    · refine .setProc ?_ q
      exact .same rfl id
    · exact .same rfl id
  | setChan p _ | setKilled p | setXstate p _ | setPriority p _ =>
    cases hx
    refine .setProc ?_ q
    exact .same rfl id
  | setContext | panic => exact hx.elim
  | _ =>
    rw [cpuExec_proc hx rfl]
    exact .same rfl id

theorem Inv.adopted_step (h : Inv initproc tr s L) (ok : pre initproc a (L i)) (hc : s.running c = i)
    (hx : cpuExec c a s r s') : Adopted s' (Function.update L i (next initproc a (L i) r)) := by
  have old : (∀ p o, a ≠ .info p o) → Adopted s' (Function.update L i (next initproc a (L i) r)) := by
    intro other q known live
    rw [field_update (f := Gh.adopted) (next_adopted _ _ other)] at known
    rcases h.bound ok hc hx q live with parent | ⟨parent, before⟩ | unknown
    · exact parent
    · rw [parent]
      exact h.adopted q known before
    · exact absurd (known.symm.trans unknown) nofun
  cases a with
  | info p o =>
    obtain ⟨rfl, rfl⟩ := hx
    intro q known live
    by_cases self : q = p
    · subst self
      obtain rfl : i = .proc q := (h.places.me i).symm.trans ok
      rw [Function.update_self] at known
      cases o with
      | parent =>
        rcases (Bool.or_eq_true ..).mp known with before | now
        · exact h.adopted q before live
        · exact Option.isSome_iff_ne_none.mp now
      | _ => exact h.adopted q known live
    · obtain rfl : i = .proc p := (h.places.me i).symm.trans ok
      rw [Function.update_of_ne fun e => self (Thread.proc.inj e)] at known
      exact h.adopted q known live
  | _ => exact old nofun

end Xv6.Process
