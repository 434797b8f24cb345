import Xv6.Process.Frame
import Xv6.Process.Verify

/-!
# The invariant of processes and CPUs

`Locks` ties the locks, `noff` and the interrupt bit to the thread a CPU executes; `Places` ties
`c->proc` to it and says where schedulers stand; `States` says what `p->state` means, hand-over
included; `Family` is about parents, children and `wait`; `Record` about what a run has recorded.
-/

namespace Xv6.Process

open Interleave

variable {n : Nat} {κ : Type} [DecidableEq κ]

/-- A process that has not exited. -/
def Live (st : ProcState) : Prop := st = .sleeping ∨ st = .runnable ∨ st = .running

/-- A process that waits for a CPU stands in `sched` and holds its own lock when it is resumed. -/
structure Gh.Ready (l : Gh n κ) (p : Fin n) : Prop where
  held : l.held = [.proc p]
  off : l.off = 1
  own : l.own = .run
  seen : l.seen = none

structure Locks (s : St n κ) (L : Thread n κ → Gh n κ) : Prop where
  inj : ∀ c d, s.running c = s.running d → c = d
  home : ∀ c d, s.running c = .cpu d → d = c
  holds : ∀ lk c, s.lock lk = some c ↔ lk ∈ (L (s.running c)).held
  nodup : ∀ c, (L (s.running c)).held.Nodup
  depth : ∀ c, (s.cpu c).noff = (L (s.running c)).off
  room : ∀ c, (L (s.running c)).held.length ≤ (L (s.running c)).off
  quiet : ∀ c, 0 < (s.cpu c).noff → (s.cpu c).intr = false

/-- The scheduler of a CPU that executes a process. -/
structure Gh.Parked (l : Gh n κ) (p : Fin n) : Prop where
  held : l.held = [.proc p]
  off : l.off = 1
  slot : l.slot = some p
  pick : l.pick = none
  seen : l.seen = none

structure Places (s : St n κ) (L : Thread n κ → Gh n κ) : Prop where
  me : ∀ t, (L t).me = t
  label : ∀ p, (L (.proc p)).pc = s.pc p
  busy : ∀ c p, s.running c = .proc p → (s.cpu c).proc = some p ∧ (L (.cpu c)).Parked p
  free : ∀ c, s.running c = .cpu c → (s.cpu c).proc = (L (.cpu c)).slot
  slotted : ∀ c p, (L (.cpu c)).slot = some p → (L (.cpu c)).held = [.proc p]
  picked : ∀ c p, (L (.cpu c)).pick = some p → (L (.cpu c)).held = [.proc p]
  plain : ∀ p, (L (.proc p)).slot = none ∧ (L (.proc p)).pick = none

/-- What a process that executes knows of its state. -/
def Executes (s : St n κ) (L : Thread n κ → Gh n κ) (p : Fin n) : Prop :=
  ((L (.proc p)).own = .run ∧ (s.proc p).state = .running) ∨
    ∃ st, (L (.proc p)).own = .set st ∧ (st = .runnable ∨ st = .sleeping ∨ st = .zombie) ∧
      (s.proc p).state = st ∧ .proc p ∈ (L (.proc p)).held

/-- What a thread saw under the lock of `x.slot` still holds. -/
def Seen.Holds (x : Seen n) (s : St n κ) : Prop :=
  (s.proc x.slot).state = x.state ∧ (s.proc x.slot).pid = x.pid ∧ (s.proc x.slot).xstate = x.xstate

structure States (s : St n κ) (L : Thread n κ → Gh n κ) : Prop where
  executes : ∀ c p, s.running c = .proc p → Executes s L p
  parked : ∀ p, (∀ c, s.running c ≠ .proc p) → Live (s.proc p).state → (L (.proc p)).Ready p
  marked : ∀ p, (s.proc p).state = .running →
    (∃ c, s.running c = .proc p) ∨ ∃ c, (L (.cpu c)).pick = some p
  picks : ∀ c p, (L (.cpu c)).pick = some p → s.running c = .cpu c ∧
    (s.proc p).state = .running ∧ ∀ d, s.running d ≠ .proc p
  seen : ∀ c x, (L (s.running c)).seen = some x →
    .proc x.slot ∈ (L (s.running c)).held ∧ s.running c ≠ .proc x.slot ∧ x.Holds s
  child : ∀ t p b, (L t).child = some (p, b) →
    (s.proc p).state = .used ∧ (b = true → L (.proc p) = Gh.fresh p)
  only : ∀ t u p b d, (L t).child = some (p, b) → (L u).child = some (p, d) → t = u

/-- A process sleeps in `wait` or is about to. -/
def Dozes (s : St n κ) (L : Thread n κ → Gh n κ) (p : Fin n) : Prop :=
  ((s.proc p).state = .sleeping ∧ (s.proc p).chan = some (.proc p)) ∨ (L (.proc p)).fam.fall

/-- What a process has found out under `wait_lock` is so. -/
structure Knows (s : St n κ) (L : Thread n κ → Gh n κ) (p : Fin n) : Prop where
  kids : ∀ q ∈ (L (.proc p)).fam.kids, (s.proc q).parent = some p
  clear : ∀ q ∈ (L (.proc p)).fam.clear, (s.proc q).parent ≠ some p
  awake : ∀ q ∈ (L (.proc p)).fam.awake, ¬ Dozes s L q
  calm : ∀ q ∈ (L (.proc p)).fam.calm, (s.proc q).parent = some p → (s.proc q).state ≠ .zombie
  parent : ∀ o, (L (.proc p)).fam.parent = some o → (s.proc p).parent = o

structure Family (initproc : Fin n) (s : St n κ) (L : Thread n κ → Gh n κ) : Prop where
  chan : ∀ p, Live (s.proc p).state → (L (.proc p)).chan = (s.proc p).chan
  still : ∀ p, (s.proc p).state = .unused ∨ (s.proc p).state = .used → (s.proc p).chan = none
  parents : ∀ p q, (s.proc p).parent = some q → Live (s.proc q).state
  orphan : ∀ p, (s.proc p).state = .unused → (s.proc p).parent = none
  init : Live (s.proc initproc).state
  young : ∀ t p b, (L t).child = some (p, b) → ∀ q, (s.proc p).parent = some q → t = .proc q
  falls : ∀ p, (L (.proc p)).fam.fall → (∃ c, s.running c = .proc p) ∧ .proc p ∈ (L (.proc p)).held
  asleep : ∀ p q, Dozes s L p → (s.proc q).parent = some p → (s.proc q).state = .zombie →
    p = initproc ∧ ∃ c, .wait ∈ (L (s.running c)).held ∧ (L (s.running c)).fam.owe
  knows : ∀ c p, s.running c = .proc p → .wait ∈ (L (.proc p)).held → Knows s L p

/-! ## The record -/

/-- Pid and status of a zombie. -/
def Proc.corpse (x : Proc n) : Option (Int × Int) :=
  if x.state = .zombie then some (x.pid, x.xstate) else none

/-- Which processes are zombies, with pid and status, as events tell it. -/
def Ev.pend (f : Fin n → Option (Int × Int)) : Ev n κ → Fin n → Option (Int × Int)
  | .exit p pid status => Function.update f p (some (pid, status))
  | .reap _ p _ _ _ => Function.update f p none
  | _ => f

def pending (tr : List (Ev n κ)) : Fin n → Option (Int × Int) := tr.foldl Ev.pend fun _ => none

/-- What `wait` has yet to return to whom. -/
def Ev.owe (f : Fin n → Option (Int × Int)) : Ev n κ → Fin n → Option (Int × Int)
  | .reap (.proc me) _ _ pid status => Function.update f me (some (pid, status))
  | .waited me _ _ => Function.update f me none
  | _ => f

def owed (tr : List (Ev n κ)) : Fin n → Option (Int × Int) := tr.foldl Ev.owe fun _ => none

/-- The event may follow a run after which `pend` are the zombies and `owe` is to be returned: only
a process that is not a zombie exits; only a zombie is freed, by the process that is its parent;
`wait` returns pid and status of the child it has freed. -/
def Ev.Fits (pend owe : Fin n → Option (Int × Int)) : Ev n κ → Prop
  | .exit p _ _ => pend p = none
  | .reap t p parent pid status => pend p = some (pid, status) ∧
      ∃ me, t = .proc me ∧ parent = some me ∧ owe me = none
  | .waited me pid status => owe me = some (pid, status)
  | _ => True

/-- Every event of a run fits what came before it. -/
def Orderly (tr : List (Ev n κ)) : Prop :=
  ∀ before e after, tr = before ++ e :: after → e.Fits (pending before) (owed before)

omit [DecidableEq κ] in
theorem Orderly.append {tr : List (Ev n κ)} (h : Orderly tr) {e : Ev n κ}
    (fits : e.Fits (pending tr) (owed tr)) : Orderly (tr ++ [e]) := by
  intro before x after split
  rcases List.eq_nil_or_concat after with rfl | ⟨after, y, rfl⟩
  · obtain ⟨rfl, rfl⟩ := List.append_singleton_inj.mp split
    exact fits
  · rw [List.concat_eq_append, ← List.cons_append, ← List.append_assoc] at split
    obtain ⟨rfl, -⟩ := List.append_singleton_inj.mp split
    exact h before x after rfl

structure Record (tr : List (Ev n κ)) (s : St n κ) (L : Thread n κ → Gh n κ) : Prop where
  orderly : Orderly tr
  pend : ∀ p, pending tr p = (s.proc p).corpse
  owed : ∀ p, owed tr p = (L (.proc p)).reaped
  clean : ∀ p, ¬ Live (s.proc p).state → (L (.proc p)).reaped = none
  born : ∀ t p b, (L t).child = some (p, b) → .alloc p (s.proc p).pid ∈ tr
  named : ∀ t pid, (L t).newpid = some pid → ∃ p, .alloc p pid ∈ tr
  forks : ∀ me pid, .forked me pid ∈ tr → ∃ p, .alloc p pid ∈ tr

/-- A process that has found that it has a parent has one as long as it lives. -/
def Adopted (s : St n κ) (L : Thread n κ → Gh n κ) : Prop :=
  ∀ p, (L (.proc p)).adopted = true → Live (s.proc p).state → (s.proc p).parent ≠ none

structure Inv (initproc : Fin n) (tr : List (Ev n κ)) (s : St n κ) (L : Thread n κ → Gh n κ) : Prop where
  locks : Locks s L
  places : Places s L
  states : States s L
  family : Family initproc s L
  record : Record tr s L
  adopted : Adopted s L

end Xv6.Process
