import Xv6.Process.Play
import Xv6.Process.Sound

/-!
# A process runs on one CPU and is reaped once

What the invariant says about every configuration of every run.
-/

namespace Xv6.Process

open Interleave

variable {n : Nat} {κ : Type} [DecidableEq κ] {initproc : Fin n} {fsinit : Client}
variable {s : St n κ} {L : Thread n κ → Gh n κ} {c d : κ} {tr : List (Ev n κ)} {p : Fin n}
variable {th : Thread n κ → Code n Unit}

omit [DecidableEq κ] in
/-- Who holds no `p->lock` of a process and is shown to have it as `c->proc` executes it. -/
theorem Inv.on_cpu (h : Inv initproc tr s L) (free : s.lock (.proc p) = none) (on : (s.cpu c).proc = some p) :
    s.running c = .proc p := by
  cases running : s.running c with
  | proc q =>
    have slot := (h.places.busy c q running).1
    rw [Option.some.inj (slot.symm.trans on)]
  | cpu d =>
    obtain rfl := h.locks.home c d running
    have slot := (h.places.free d running).symm.trans on
    have mem : .proc p ∈ (L (s.running d)).held := by
      rw [running, h.places.slotted d p slot]
      exact List.mem_singleton_self _
    exact absurd mem (h.locks.none free d)

omit [DecidableEq κ] in
/-- While `p->lock` is free, `RUNNING` says that one CPU has the process as `c->proc`. -/
theorem Inv.running_iff (h : Inv initproc tr s L) (free : s.lock (.proc p) = none) :
    (s.proc p).state = .running ↔ ∃! c, (s.cpu c).proc = some p := by
  constructor
  · intro run
    rcases h.states.marked p run with ⟨c, hc⟩ | ⟨c, pick⟩
    · refine ⟨c, (h.places.busy c p hc).1, fun d on => ?_⟩
      exact h.locks.inj d c ((h.on_cpu free on).trans hc.symm)
    · have mem : .proc p ∈ (L (s.running c)).held := by
        rw [(h.states.picks c p pick).1, h.places.picked c p pick]
        exact List.mem_singleton_self _
      exact absurd mem (h.locks.none free c)
  · rintro ⟨c, on, -⟩
    have running := h.on_cpu free on
    rcases h.states.executes c p running with ⟨-, run⟩ | ⟨st, -, -, -, mem⟩
    · exact run
    · exact absurd (running.symm ▸ mem) (h.locks.none free c)

/-- A process is executed by at most one CPU: `RUNNING` means what it says when `p->lock` is free,
no two CPUs execute on one stack, a CPU that switches to a process or back to its scheduler finds
nobody there, and the kernel panics only when init exits. -/
structure OneCpu (s : St n κ) (th : Thread n κ → Code n Unit) : Prop where
  running : ∀ p, s.lock (.proc p) = none → ((s.proc p).state = .running ↔ ∃! c, (s.cpu c).proc = some p)
  apart : ∀ c d, s.running c = s.running d → c = d
  resume : ∀ c p k, th (s.running c) = .act (.resume p) k → ∀ d, s.running d ≠ .proc p ∧
    ∀ k', th (s.running d) = .act (.resume p) k' → d = c
  suspend : ∀ c k, th (s.running c) = .act .suspend k → ∀ d, s.running d ≠ .cpu c
  panics : ∀ c msg k, th (s.running c) = .act (.panic msg) k → msg = "init exiting"

/-- What a verified thread does next is allowed. -/
theorem Verified.next_ok (verified : (logic initproc).Verified th L) {i : Thread n κ} {a : Act n}
    {k : Res a → Code n Unit} (code : th i = .act a k) : pre initproc a (L i) := by
  have h := verified i
  rw [code] at h
  exact h.1

/-- One CPU, two processes: the scheduler picks init, and init goes to user space. -/
def startInit : List Cmd := .schedule :: List.replicate 15 (.step 0)

theorem startInit_ok : ∀ c ∈ startInit, c.Ok := List.forall_mem_cons.mpr ⟨trivial, steps_ok 15 0⟩

/-- `exit` and `wait`: parents live; every event of the run fits what came before, so that a
process that has exited stays a zombie until its parent reaps it, once, and `wait` returns pid and
status of the child it has reaped; a process that is freed is not executed; while `wait_lock` is
free, nobody sleeps in `wait` who has a zombie child. -/
structure ExitWait (tr : List (Ev n κ)) (s : St n κ) (th : Thread n κ → Code n Unit) : Prop where
  parents : ∀ p q, (s.proc p).parent = some q → (s.proc q).state ≠ .unused ∧ (s.proc q).state ≠ .zombie
  orderly : Orderly tr
  zombies : ∀ p, pending tr p = (s.proc p).corpse
  idle : ∀ c p k, th (s.running c) = .act (.freeproc p) k → ∀ d, s.running d ≠ .proc p
  awake : s.lock .wait = none → ∀ p q, (s.proc p).state = .sleeping → (s.proc p).chan = some (.proc p) →
    (s.proc q).parent = some p → (s.proc q).state ≠ .zombie

/-- `fork` by init, with memory for the child. -/
def forkChild : List Cmd :=
  .trap (.syscall (.fork (pure ())) (pure ())) :: List.replicate 18 (.step 1) ++ .context :: List.replicate 26 (.step 1)

/-- init forks and sleeps in `wait`; the child exits with 7; init reaps it. -/
def forkExitWait : List Cmd :=
  startInit ++ forkChild ++ .finish :: List.replicate 4 (.step 0) ++
    .trap (.syscall (.wait 0) (pure ())) :: List.replicate 7 (.step 0) ++ .look :: List.replicate 45 (.step 0) ++
    .trap (.syscall (.exit (pure ()) 7) (pure ())) :: List.replicate 30 (.step 0) ++
    .schedule :: List.replicate 18 (.step 0) ++ .look :: List.replicate 17 (.step 0)

theorem forkChild_ok : ∀ c ∈ forkChild, c.Ok := by
  simp only [forkChild, List.cons_append, List.forall_mem_cons, List.forall_mem_append]
  exact ⟨⟨disciplined_nothing, disciplined_nothing⟩, steps_ok 18 1, trivial, steps_ok 26 1⟩

theorem forkExitWait_ok : ∀ c ∈ forkExitWait, c.Ok := by
  simp only [forkExitWait, List.append_assoc, List.cons_append, List.forall_mem_cons, List.forall_mem_append]
  exact ⟨startInit_ok, forkChild_ok, trivial, steps_ok 4 0, ⟨trivial, disciplined_nothing⟩, steps_ok 7 0, trivial,
    steps_ok 45 0, ⟨disciplined_nothing, disciplined_nothing⟩, steps_ok 30 0, trivial, steps_ok 18 0, trivial,
    steps_ok 17 0⟩

end Xv6.Process
