import Xv6.Interleave.Own
import Xv6.Sleeplock.Model

/-!
# The sleep-lock is a lock, and no wakeup is missed

A process knows the lock as long as it holds `lk->lk`. `fine` are the processes that, as far as the
holder of `lk->lk` knows, do not sleep on a free lock.
-/

namespace Xv6.Sleeplock

open Interleave

variable {n : Nat} {pid : Fin n → Int}

/-! ## What a process knows -/

structure Gh (n : Nat) where
  me : Fin n
  place : Label
  /-- `lk->lk` -/
  held : Bool
  known : Option Lock
  fine : Set (Fin n)

section Rules

def pre : Act n → Gh n → Prop
  | .acquire, l => l.held = false
  | .release, l => l.held = true ∧ l.fine = Set.univ
  | .read, l => l.held = true
  | .sleep, l => l.held = true ∧ l.fine = Set.univ ∧ ∃ lk, l.known = some lk ∧ lk.locked = true
  | .take, l => l.held = true ∧ l.fine = Set.univ ∧ ∃ lk, l.known = some lk ∧ lk.locked = false
  | .drop, l => l.held = true ∧ l.place = .held
  | .wakeOne _, l => l.held = true
  | .goto place, l => l.place.Inside ↔ place.Inside
  | _, _ => True

def tells : (a : Act n) → Gh n → Res a → Prop
  | _, _, _ => True

def next : (a : Act n) → Gh n → Res a → Gh n
  | .acquire, l, _ => { l with held := true, known := none, fine := Set.univ }
  | .release, l, _ => { l with held := false }
  | .read, l, r => { l with known := some r }
  | .sleep, l, _ => { l with held := false }
  | .take, l, _ => { l with known := none, place := .taken }
  | .drop, l, _ => { l with known := none, place := .out, fine := {l.me} }
  | .wakeOne p, l, _ => { l with fine := insert p l.fine }
  | .goto place, l, _ => { l with place := place }
  | _, l, _ => l

def rules : Rules (Act n) Res (Gh n) where
  pre := pre
  tells := tells
  next := next

/-- Between two pieces of code. -/
def Gh.Rests (l : Gh n) : Prop :=
  match l.place with
  | .waiting => l.held = true ∧ l.fine = Set.univ
  | .taken => False
  | _ => l.held = false

end Rules

/-! ## The code -/

section Code

variable {l : Gh n}

theorem rests_of_away (place : l.place = .out ∨ l.place = .held) (away : l.held = false) : l.Rests := by
  rw [Gh.Rests]
  rcases place with e | e <;> rwa [e]

theorem wakeup_does (held : l.held = true) (mine : l.me ∈ l.fine) :
    rules.Does (wakeup l.me) l { l with fine := Set.univ } := by
  -- after `done` the processes in `S` are fine, and nothing else has moved
  have loop := @Rules.wp_forEach _ _ _ _ (rules (n := n)) (wakeupOne l.me)
    (fun done g => ∃ S, g = { l with fine := S } ∧ l.fine ∪ done \ {l.me} ⊆ S) ?_
    (List.finRange n) ∅ l ⟨l.fine, rfl, by simp⟩
  · refine Rules.wp_mono loop ?_
    rintro ⟨⟩ g ⟨S, rfl, all⟩
    obtain rfl : S = Set.univ := by
      refine Set.eq_univ_of_forall fun p => all ?_
      by_cases e : p = l.me
      · exact Or.inl (e ▸ mine)
      · exact Or.inr ⟨by simp, e⟩
    rfl
  · rintro p done g ⟨S, rfl, some⟩
    rw [wakeupOne]
    split
    · refine Rules.wp_last (G := rules) (a := .wakeOne p) held fun _ _ => ⟨insert p S, rfl, ?_⟩
      rintro q (old | ⟨rfl | old, other⟩)
      · exact Or.inr (some (Or.inl old))
      · exact Or.inl rfl
      · exact Or.inr (some (Or.inr ⟨old, other⟩))
    · rename_i self
      refine Rules.wp_ret (G := rules) ⟨S, rfl, ?_⟩
      rintro q (old | ⟨rfl | old, other⟩)
      · exact some (Or.inl old)
      · exact absurd (not_not.mp self) other
      · exact some (Or.inr ⟨old, other⟩)

theorem acquireLoop_wp (held : l.held = true) (fine : l.fine = Set.univ) (place : ¬l.place.Inside) :
    rules.wp acquireLoop l fun _ g => g.Rests := by
  refine Rules.wp_act (a := Act.read) held fun lk _ => ?_
  split
  · rename_i locked
    refine Rules.wp_act (a := Act.sleep) ⟨held, fine, lk, rfl, locked⟩ fun _ _ => ?_
    refine Rules.wp_act (a := Act.acquire) rfl fun _ _ => ?_
    refine Rules.wp_last (a := Act.goto .waiting) (iff_of_false place ?_) fun _ _ => ⟨rfl, rfl⟩
    rintro (h | h) <;> cases h
  · rename_i free
    refine Rules.wp_act (a := Act.take) ⟨held, fine, lk, rfl, by simpa using free⟩ fun _ _ => ?_
    refine Rules.wp_act (a := Act.release) ⟨held, fine⟩ fun _ _ => ?_
    exact Rules.wp_last (a := Act.goto .held) (iff_of_true (Or.inl rfl) (Or.inr rfl)) fun _ _ => rfl

theorem acquiresleep_wp (away : l.held = false) (place : ¬l.place.Inside) :
    rules.wp acquiresleep l fun _ g => g.Rests :=
  Rules.wp_act (a := Act.acquire) away fun _ _ => acquireLoop_wp rfl rfl place

theorem releasesleep_wp (away : l.held = false) (place : l.place = .held) :
    rules.wp (releasesleep l.me) l fun _ g => g.Rests := by
  refine Rules.wp_act (a := Act.acquire) away fun _ _ => ?_
  refine Rules.wp_act (a := Act.drop) ⟨rfl, place⟩ fun _ _ => ?_
  refine Rules.Does.then (wakeup_does (l := next .drop (next .acquire l ()) ()) rfl rfl) fun _ => ?_
  exact Rules.wp_last (a := Act.release) ⟨rfl, rfl⟩ fun _ _ => rfl

theorem holdingsleep_wp (away : l.held = false) (place : l.place = .out ∨ l.place = .held) :
    rules.wp (do let _ ← holdingsleep pid l.me) l fun _ g => g.Rests := by
  refine Rules.wp_act (a := Act.acquire) away fun _ _ => Rules.wp_act (a := Act.read) rfl fun lk _ => ?_
  refine Rules.wp_act (a := Act.release) ⟨rfl, rfl⟩ fun _ _ => Rules.wp_ret (G := rules) ?_
  exact rests_of_away place rfl

end Code

/-! ## The invariant -/

/-- The lock of which `owner` is the owner. -/
def Lock.of (pid : Fin n → Int) : Option (Fin n) → Lock
  | none => ⟨false, 0⟩
  | some i => ⟨true, pid i⟩

/-- The lock as what it is for: it has an owner or none. -/
structure Owned (pid : Fin n → Int) (lock : Lock) (pc : Fin n → Label) (owner : Option (Fin n)) : Prop where
  inside : ∀ i, (pc i).Inside ↔ owner = some i
  lock : lock = Lock.of pid owner

structure Knows (s : St n) (i : Fin n) (l : Gh n) : Prop where
  me : l.me = i
  place : l.place = s.pc i
  held : l.held = true ↔ s.lk = some i
  known : l.held = true → ∀ lk, l.known = some lk → lk = s.lock

def fineNow (s : St n) (L : Fin n → Gh n) : Set (Fin n) := ofHolder Set.univ (·.fine) s.lk L

structure Inv (pid : Fin n → Int) (s : St n) (L : Fin n → Gh n) : Prop where
  knows : ∀ i, Knows s i (L i)
  owned : ∃ owner, Owned pid s.lock s.pc owner
  awake : ∀ p ∈ fineNow s L, (s.rest p).Dozes () → s.lock.locked = true

section Steps

variable {s s' : St n} {L : Fin n → Gh n} {i : Fin n} {a : Act n} {r : Res a}
variable {lock : Lock} {pc : Fin n → Label} {owner : Option (Fin n)}

theorem Owned.free (h : Owned pid lock pc owner) (unlocked : lock.locked = false) : owner = none := by
  rw [h.lock] at unlocked
  cases owner with
  | none => rfl
  | some j => cases unlocked

theorem not_inside_out : ¬Label.out.Inside := by
  rintro (h | h) <;> cases h

/-- The process that takes a free lock owns it. -/
theorem Owned.take (h : Owned pid lock pc none) :
    Owned pid ⟨true, pid i⟩ (Function.update pc i .taken) (some i) where
  inside j := by
    by_cases e : j = i
    · subst e
      simp [Label.Inside]
    · rw [Function.update_of_ne e, h.inside]
      exact iff_of_false nofun fun same => e (Option.some.inj same).symm
  lock := rfl

/-- The owner lets go of the lock. -/
theorem Owned.drop (h : Owned pid lock pc owner) (mine : (pc i).Inside) :
    Owned pid ⟨false, 0⟩ (Function.update pc i .out) none where
  inside j := by
    refine iff_of_false ?_ nofun
    by_cases e : j = i
    · subst e
      rw [Function.update_self]
      exact not_inside_out
    · rw [Function.update_of_ne e, h.inside, (h.inside i).mp mine]
      exact fun same => e (Option.some.inj same).symm
  lock := rfl

theorem Owned.goto (h : Owned pid lock pc owner) {l : Label} (same : (pc i).Inside ↔ l.Inside) :
    Owned pid lock (Function.update pc i l) owner where
  inside j := by
    by_cases e : j = i
    · subst e
      rw [Function.update_self, ← same, h.inside]
    · rw [Function.update_of_ne e, h.inside]
  lock := h.lock

theorem Inv.owned_step (h : Inv pid s L) (ok : pre a (L i)) (step : exec pid i a s r s') :
    ∃ owner, Owned pid s'.lock s'.pc owner := by
  obtain ⟨-, step⟩ := step
  obtain ⟨owner, owned⟩ := h.owned
  have place := (h.knows i).place
  cases a with
  | take =>
    obtain ⟨held, -, lk, known, free⟩ := ok
    rw [(h.knows i).known held lk known] at free
    obtain rfl := owned.free free
    subst step
    exact ⟨some i, owned.take⟩
  | drop =>
    subst step
    exact ⟨none, owned.drop (Or.inr (place.symm.trans ok.2))⟩
  | goto l =>
    subst step
    rw [pre, place] at ok
    exact ⟨owner, owned.goto ok⟩
  | acquire | read | wakeOne p | kill p =>
    obtain ⟨-, rfl⟩ := step
    exact ⟨owner, owned⟩
  | release | sleep =>
    subst step
    exact ⟨owner, owned⟩

theorem Inv.knows_self (h : Inv pid s L) (step : exec pid i a s r s') : Knows s' i (next a (L i) r) := by
  obtain ⟨-, step⟩ := step
  have knows := h.knows i
  cases a with
  | acquire =>
    obtain ⟨-, rfl⟩ := step
    exact { knows with held := iff_of_true rfl rfl, known := nofun }
  | release | sleep =>
    subst step
    exact { knows with held := iff_of_false (by simp [next]) nofun, known := nofun }
  | read =>
    obtain ⟨rfl, rfl⟩ := step
    exact { knows with known := fun _ lk known => (Option.some.inj known).symm }
  | take | drop =>
    subst step
    exact { knows with place := by simp [next], known := nofun }
  | wakeOne p | kill p =>
    obtain ⟨-, rfl⟩ := step
    exact { knows with }
  | goto l =>
    subst step
    exact { knows with place := by simp [next] }

/-- The others know what they knew. -/
theorem Inv.knows_other (h : Inv pid s L) (ok : pre a (L i)) (step : exec pid i a s r s') {j : Fin n} (ne : j ≠ i) :
    Knows s' j (L j) := by
  obtain ⟨-, step⟩ := step
  have knows := h.knows j
  -- a process without `lk->lk` knows nothing about the lock
  have frame : s'.pc j = s.pc j → s.lk ≠ some j → s'.lk ≠ some j → Knows s' j (L j) := by
    intro pc before after
    have away : ¬(L j).held = true := fun held => before (knows.held.mp held)
    exact ⟨knows.me, knows.place.trans pc.symm, iff_of_false away after, fun held => absurd held away⟩
  have locked : (L i).held = true → s.lk ≠ some j := by
    intro held same
    rw [(h.knows i).held.mp held] at same
    exact ne (Option.some.inj same).symm
  cases a with
  | acquire =>
    obtain ⟨free, rfl⟩ := step
    exact frame rfl (by rw [free]; nofun) (by simpa using ne.symm)
  | release | sleep =>
    subst step
    exact frame rfl (locked ok.1) nofun
  | take | drop =>
    subst step
    exact frame (Function.update_of_ne ne _ _) (locked ok.1) (locked ok.1)
  | read | wakeOne p | kill p =>
    obtain ⟨-, rfl⟩ := step
    exact { knows with }
  | goto l =>
    subst step
    exact { knows with place := knows.place.trans (Function.update_of_ne ne _ _).symm }

theorem Inv.awake_step (h : Inv pid s L) (ok : pre a (L i)) (step : exec pid i a s r s') (p : Fin n)
    (fine : p ∈ fineNow s' (Function.update L i (next a (L i) r))) (dozes : (s'.rest p).Dozes ()) :
    s'.lock.locked = true := by
  obtain ⟨up, step⟩ := step
  have mine := (h.knows i).held
  have own : (L i).held = true → fineNow s L = (L i).fine := fun held => ofHolder_held (mine.mp held)
  have now : s'.lk = some i → p ∈ (next a (L i) r).fine := fun held => by rwa [fineNow, ofHolder_update held] at fine
  have same : s'.lk = s.lk → (next a (L i) r).fine = (L i).fine → p ∈ fineNow s L := fun lk keep => by
    rwa [fineNow, ofHolder_frame lk keep] at fine
  cases a with
  | acquire =>
    obtain ⟨free, rfl⟩ := step
    refine h.awake p ?_ dozes
    rw [fineNow, ofHolder_free free]
    trivial
  | release =>
    subst step
    refine h.awake p ?_ dozes
    rw [own ok.1, ok.2]
    trivial
  | sleep =>
    -- the lock was seen to be taken
    obtain ⟨held, -, lk, known, locked⟩ := ok
    subst step
    rwa [(h.knows i).known held lk known] at locked
  | take =>
    subst step
    rfl
  | drop =>
    subst step
    obtain rfl : p = i := (now (mine.mp ok.1)).trans (h.knows i).me
    simp only [up] at dozes
    exact absurd dozes Rest.not_dozes_awake
  | wakeOne q =>
    obtain ⟨opened, rfl⟩ := step
    by_cases e : p = q
    · subst e
      simp only [Function.update_self] at dozes
      exact absurd dozes (Rest.not_dozes_wake opened)
    · simp only [Function.update_of_ne e] at dozes
      refine h.awake p ?_ dozes
      rw [own ok]
      exact (now (mine.mp ok)).resolve_left e
  | kill q =>
    obtain ⟨-, rfl⟩ := step
    refine h.awake p (same rfl rfl) ?_
    by_cases e : p = q
    · subst e
      simp only [Function.update_self] at dozes
      exact dozes.of_rouse
    · simpa only [Function.update_of_ne e] using dozes
  | read =>
    obtain ⟨-, rfl⟩ := step
    exact h.awake p (same rfl rfl) dozes
  | goto l =>
    subst step
    exact h.awake p (same rfl rfl) dozes

theorem Inv.step (h : Inv pid s L) (ok : pre a (L i)) (step : exec pid i a s r s') :
    Inv pid s' (Function.update L i (next a (L i) r)) where
  knows j := by
    by_cases e : j = i
    · subst e
      rw [Function.update_self]
      exact h.knows_self step
    · rw [Function.update_of_ne e]
      exact h.knows_other ok step e
  owned := h.owned_step ok step
  awake := h.awake_step ok step

/-- A process marks itself `SLEEPING`. -/
theorem Inv.slept (h : Inv pid s L) (falling : s.rest i = .falling ()) :
    Inv pid { s with rest := Function.update s.rest i (.asleep ()) } L where
  knows j := { h.knows j with }
  owned := h.owned
  awake p fine dozes := by
    refine h.awake p fine ?_
    by_cases e : p = i
    · subst e
      exact Or.inl falling
    · simpa [e] using dozes

end Steps

/-! ## Every run -/

/-- What a process starts is verified from what it knows. -/
theorem Knows.calls_wp {s : St n} {i : Fin n} {l : Gh n} (knows : Knows s i l) (rests : l.Rests) {p : Code n Unit}
    (starts : calls pid i s p) : rules.wp p l fun _ g => g.Rests := by
  obtain rfl := knows.me
  rw [calls, ← knows.place] at starts
  have again := rests
  rw [Gh.Rests] at rests
  cases place : l.place with
  | out =>
    rw [place] at starts rests
    rcases starts with rfl | rfl | ⟨q, rfl⟩
    · exact acquiresleep_wp rests (by rw [place]; exact not_inside_out)
    · exact holdingsleep_wp rests (Or.inl place)
    · exact Rules.wp_last (a := Act.kill q) trivial fun _ _ => again
  | waiting =>
    rw [place] at starts rests
    obtain rfl : p = acquireLoop := starts
    refine acquireLoop_wp rests.1 rests.2 ?_
    rw [place]
    rintro (h | h) <;> cases h
  | taken =>
    rw [place] at rests
    exact rests.elim
  | held =>
    rw [place] at starts rests
    rcases starts with rfl | rfl | ⟨q, rfl⟩
    · exact releasesleep_wp rests place
    · exact holdingsleep_wp rests (Or.inr place)
    · exact Rules.wp_last (a := Act.kill q) trivial fun _ _ => again

def logic (pid : Fin n → Int) : Logic (sys pid) (Gh n) where
  inv _ := Inv pid
  pre := rules.pre
  post := rules.post
  fin := Gh.Rests
  run_sound h ok step := ⟨_, ⟨trivial, rfl⟩, h.step ok step⟩
  call_sound {tr s L i p} h rests starts := by
    refine ⟨L i, (h.knows i).calls_wp rests starts, ?_⟩
    rwa [Function.update_eq_self]
  env_sound {tr s L th o s' th'} h verified moves := by
    cases moves with
    | slept falling => exact ⟨L, h.slept falling, verified⟩

def Gh.start (i : Fin n) : Gh n where
  me := i
  place := .out
  held := false
  known := none
  fine := Set.univ

theorem start_inv (killed : Fin n → Bool) : Inv pid (start killed) Gh.start where
  knows _ := ⟨rfl, rfl, iff_of_false nofun nofun, nofun⟩
  owned := ⟨none, fun _ => iff_of_false not_inside_out nofun, rfl⟩
  awake _ _ dozes := absurd dozes Rest.not_dozes_awake

theorem reach_inv {killed : Fin n → Bool} {tr : List Unit} {s : St n} {th : Fin n → Code n Unit}
    (run : (sys pid).Reach (start killed) (fun _ => pure ()) tr s th) : ∃ L, Inv pid s L := by
  have verified : (logic pid).Verified (fun _ => pure ()) Gh.start := by
    intro i
    show (Gh.start i).Rests
    exact rests_of_away (Or.inl rfl) rfl
  obtain ⟨L, inv, -⟩ := (logic pid).reach_inv (start_inv killed) verified run
  exact ⟨L, inv⟩

/-- In every run at most one process is between the moment at which `acquiresleep` takes the lock and
the one at which `releasesleep` gives it back; `locked` is set exactly while there is one and `pid` is
its pid; and while `lk->lk` is free nobody sleeps, or is about to sleep, on an unlocked lock. -/
theorem sleeplock_excludes (pid : Fin n → Int) {killed : Fin n → Bool} {tr : List Unit} {s : St n}
    {th : Fin n → Code n Unit} (run : (sys pid).Reach (start killed) (fun _ => pure ()) tr s th) :
    (∀ i j, (s.pc i).Inside → (s.pc j).Inside → i = j) ∧
    (s.lock.locked = true ↔ ∃ i, (s.pc i).Inside) ∧
    (∀ i, (s.pc i).Inside → s.lock.pid = pid i) ∧
    (s.lk = none → s.lock.locked = false → ∀ i, ¬(s.rest i).Dozes ()) := by
  obtain ⟨L, inv⟩ := reach_inv run
  obtain ⟨owner, owned⟩ := inv.owned
  refine ⟨fun i j hi hj => ?_, ⟨fun locked => ?_, ?_⟩, fun i hi => ?_, fun free unlocked i dozes => ?_⟩
  · rw [owned.inside] at hi hj
    exact Option.some.inj (hi.symm.trans hj)
  · rw [owned.lock] at locked
    cases owner with
    | none => cases locked
    | some i => exact ⟨i, (owned.inside i).mpr rfl⟩
  · rintro ⟨i, hi⟩
    rw [owned.lock, (owned.inside i).mp hi]
    rfl
  · rw [owned.lock, (owned.inside i).mp hi]
    rfl
  · have locked := inv.awake i (by rw [fineNow, ofHolder_free free]; trivial) dozes
    rw [unlocked] at locked
    cases locked

/-- Process 0 takes the lock; process 1 finds it taken and has released `lk->lk` when process 0 gives it
back; then it takes the lock. -/
def handOver : List (Cmd (Fin 2) (Move 2)) :=
  let p : Fin 2 := ⟨0, Nat.two_pos⟩
  let q : Fin 2 := ⟨1, Nat.one_lt_two⟩
  .start (.acquiresleep p) :: List.replicate 5 (.step p) ++
  .start (.acquiresleep q) :: List.replicate 3 (.step q) ++
  .start (.releasesleep p) :: List.replicate 2 (.step p) ++
  .env (.slept q) :: List.replicate 2 (.step p) ++
  List.replicate 2 (.step q) ++ .start (.again q) :: List.replicate 4 (.step q)

theorem sleeplock_excludes_handOver : ∃ (tr : List Unit) (s : St 2) (th : Fin 2 → Code 2 Unit),
    (sys fun i => i + 1).Reach (start fun _ => false) (fun _ => pure ()) tr s th ∧ s.pc 1 = .held ∧ s.lk = none ∧
    s.lock.locked = true ∧ s.lock.pid = 2 ∧ ∀ i, (s.pc i).Inside → i = 1 := by
  obtain ⟨tr, s, th, run, h⟩ := (engine fun i : Fin 2 => i + 1).exists_reach (fun _ _ _ => true) handOver
    (start fun _ => false) (fun _ => pure ()) (fun _ s _ => decide (s.pc 1 = .held) && decide (s.lk = none))
    (by decide +kernel)
  simp only [Bool.and_eq_true, decide_eq_true_eq] at h
  obtain ⟨one, locked, owner, -⟩ := sleeplock_excludes _ run.of_restrict
  have inside : (s.pc 1).Inside := Or.inr h.1
  exact ⟨tr, s, th, run.of_restrict, h.1, h.2, locked.mpr ⟨1, inside⟩, owner 1 inside, fun i hi => one i 1 hi inside⟩

end Xv6.Sleeplock
