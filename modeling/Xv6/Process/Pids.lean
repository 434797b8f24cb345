import Xv6.Process.Kill

/-!
# Process identifiers

`allocpid` hands out the value of a 32-bit counter that is only ever incremented. As long as the
counter has not wrapped, pids are positive and different. After 2^31 - 1 of them it wraps, and the
next process gets a negative pid.
-/

namespace Xv6.Process

open Interleave

variable {n : Nat} {κ : Type} [DecidableEq κ] {initproc : Fin n} {fsinit : Client}
variable {s s' : St n κ} {L L' : Thread n κ → Gh n κ} {i : Thread n κ} {c : κ} {a : Act n}
variable {r : Res a} {tr : List (Ev n κ)} {p q : Fin n} {th : Thread n κ → Code n Unit}

/-- `allocpid` is called with a counter that has not wrapped. -/
def CountsUp (_ : Thread n κ) (a : Act n) (s : St n κ) : Prop := ∀ p, a = .claim p → 0 < s.nextpid

/-- Pids are positive and different, and below the counter until it wraps. -/
structure Numbered (tr : List (Ev n κ)) (s : St n κ) : Prop where
  range : s.nextpid < 2 ^ 31
  pos : ∀ p, (s.proc p).state ≠ .unused → 0 < (s.proc p).pid
  below : ∀ p, (s.proc p).state ≠ .unused → 0 < s.nextpid → (s.proc p).pid < s.nextpid
  apart : ∀ p q, (s.proc p).state ≠ .unused → (s.proc q).state ≠ .unused → (s.proc p).pid = (s.proc q).pid → p = q
  allocs : ∀ p pid, .alloc p pid ∈ tr → 0 < pid

theorem addInt_one {v : Int} (pos : 0 < v) (range : v < 2 ^ 31) :
    addInt v 1 < 2 ^ 31 ∧ (0 < addInt v 1 → addInt v 1 = v + 1) := by
  rw [addInt, Int.bmod_def]
  split <;> omega

omit [DecidableEq κ] in
/-- A process that is in use after a step was in use before it, with the same pid, or is new. -/
theorem Change.pid {y : Proc n} (h : Change s a q y) (used : y.state ≠ .unused) :
    ((s.proc q).state ≠ .unused ∧ y.pid = (s.proc q).pid) ∨ (a = .claim q ∧ y.pid = s.nextpid) := by
  cases h with
  | keeps pid _ unused _ => exact Or.inl ⟨fun h => used (unused.mpr h), pid⟩
  | exits _ running becomes =>
    rw [running, becomes]
    exact Or.inl ⟨nofun, rfl⟩
  | killed _ becomes =>
    subst becomes
    refine Or.inl ⟨fun unused => used ?_, rfl⟩
    simp [Proc.kill, unused]
  | faults _ running becomes =>
    rw [running, becomes]
    exact Or.inl ⟨nofun, rfl⟩
  | claimed act _ becomes =>
    rw [becomes]
    exact Or.inr ⟨act, rfl⟩
  | freed _ _ becomes =>
    rw [becomes] at used
    exact absurd rfl used

theorem cpuExec_nextpid (h : cpuExec c a s r s') (k : ∀ p, a ≠ .claim p) : s'.nextpid = s.nextpid := by
  cases a with
  | killOne | priorityOne =>
    obtain ⟨-, -, rfl⟩ := h
    split <;> rfl
  | setContext | panic => exact h.elim
  | claim p => exact absurd rfl (k p)
  | _ => obtain ⟨-, rfl⟩ := h; rfl

omit [DecidableEq κ] in
theorem obs_alloc {pid : Int} (h : .alloc p pid ∈ obs i a s) : a = .claim p ∧ pid = s.nextpid := by
  cases a with
  | claim q =>
    obtain ⟨rfl, rfl⟩ : p = q ∧ pid = s.nextpid := by simpa [obs] using h
    exact ⟨rfl, rfl⟩
  | setState | freeproc | killOne =>
    simp only [obs] at h
    split at h <;> simp at h
  | waited | forked | setKilled => simp [obs] at h
  | _ => cases h

/-- Steps that hand out no pid. -/
theorem Numbered.keep (N : Numbered tr s) (h : Inv initproc tr s L) (ok : pre initproc a (L i))
    (hc : s.running c = i) (hx : cpuExec c a s r s') (k : ∀ p, a ≠ .claim p) : Numbered (tr ++ obs i a s) s' := by
  have old : ∀ p, (s'.proc p).state ≠ .unused →
      (s.proc p).state ≠ .unused ∧ (s'.proc p).pid = (s.proc p).pid := by
    intro p used
    rcases (h.change ok hc hx p).pid used with same | ⟨act, -⟩
    · exact same
    · exact absurd act (k p)
  have nextpid := cpuExec_nextpid hx k
  refine ⟨?_, fun p used => ?_, fun p used pos => ?_, fun p q hp hq same => ?_, fun p pid mem => ?_⟩
  · rw [nextpid]
    exact N.range
  · obtain ⟨before, pid⟩ := old p used
    rw [pid]
    exact N.pos p before
  · obtain ⟨before, pid⟩ := old p used
    rw [nextpid] at pos ⊢
    rw [pid]
    exact N.below p before pos
  · obtain ⟨usedp, pidp⟩ := old p hp
    obtain ⟨usedq, pidq⟩ := old q hq
    exact N.apart p q usedp usedq (by rw [← pidp, ← pidq, same])
  · rcases List.mem_append.mp mem with before | new
    · exact N.allocs p pid before
    · exact absurd (obs_alloc new).1 (k p)

/-- `allocproc` takes slot `q` and a pid. -/
theorem Numbered.claim (N : Numbered tr s) (h : Inv initproc tr s L) (ok : pre initproc (.claim q) (L i))
    (hc : s.running c = i) {r : Int} (hx : cpuExec c (.claim q) s r s') (pos : 0 < s.nextpid) :
    Numbered (tr ++ obs i (.claim q) s) s' := by
  have nextpid : s'.nextpid = addInt s.nextpid 1 := by
    obtain ⟨-, rfl⟩ := hx
    rfl
  obtain ⟨range, up⟩ := addInt_one pos N.range
  have old : ∀ p, (s'.proc p).state ≠ .unused → ((s.proc p).state ≠ .unused ∧ (s'.proc p).pid = (s.proc p).pid) ∨
      (p = q ∧ (s'.proc p).pid = s.nextpid) := by
    intro p used
    refine ((h.change ok hc hx p).pid used).imp_right fun ⟨act, pid⟩ => ⟨?_, pid⟩
    exact (Act.claim.inj act).symm
  refine ⟨nextpid ▸ range, fun p used => ?_, fun p used pos' => ?_, fun p m hp hm same => ?_, fun p pid mem => ?_⟩
  · rcases old p used with ⟨before, pid⟩ | ⟨-, pid⟩ <;> rw [pid]
    · exact N.pos p before
    · exact pos
  · rw [nextpid] at pos' ⊢
    rw [up pos']
    rcases old p used with ⟨before, pid⟩ | ⟨-, pid⟩ <;> rw [pid]
    · have := N.below p before pos
      omega
    · omega
  · rcases old p hp with ⟨usedp, pidp⟩ | ⟨rfl, pidp⟩
    · rcases old m hm with ⟨usedm, pidm⟩ | ⟨rfl, pidm⟩
      · exact N.apart p m usedp usedm (by rw [← pidp, ← pidm, same])
      · have := N.below p usedp pos
        omega
    · rcases old m hm with ⟨usedm, pidm⟩ | ⟨rfl, -⟩
      · have := N.below m usedm pos
        omega
      · rfl
  · rcases List.mem_append.mp mem with before | new
    · exact N.allocs p pid before
    · rw [(obs_alloc new).2]
      exact pos

theorem numbered_keeps :
    Keeps initproc (CountsUp : Thread n κ → Act n → St n κ → Prop) fun tr s _ => Numbered tr s where
  step := by
    intro tr s L i c a r s' h N ok up hc hx
    cases a with
    | claim q => exact N.claim h ok hc hx (up q rfl)
    | _ => exact N.keep h ok hc hx nofun
  env := by
    intro tr s L s' L' _ N moves
    rcases moves with ⟨c, x, rfl, -⟩ | ⟨t, p, -, rfl, -⟩ <;> exact ⟨N.range, N.pos, N.below, N.apart, N.allocs⟩

omit [DecidableEq κ] in
theorem boot_numbered (initproc : Fin n) : Numbered [] (boot initproc : St n κ) := by
  have used : ∀ p, ((boot initproc : St n κ).proc p).state ≠ .unused →
      p = initproc ∧ ((boot initproc : St n κ).proc p).pid = 1 := by
    intro p h
    rcases boot_cases κ initproc p with ⟨init, first, -⟩ | ⟨-, freed, -⟩
    · rw [first]
      exact ⟨init, rfl⟩
    · rw [freed] at h
      exact absurd rfl h
  refine ⟨show (2 : Int) < 2 ^ 31 by decide, fun p h => ?_, fun p h _ => ?_, fun p q hp hq _ => ?_, nofun⟩
  · rw [(used p h).2]
    decide
  · rw [(used p h).2]
    exact show (1 : Int) < 2 by decide
  · exact (used p hp).1.trans (used q hq).1.symm

/-- In runs in which the counter has not wrapped when `allocpid` is called, the pids of processes
are positive and different, and `fork` returns positive values. -/
theorem pids_distinct (ok : fsinit.Disciplined .sleep)
    (run : ((sys initproc).restrict CountsUp).Reach (boot initproc) (bootPool initproc fsinit) tr s th) :
    (∀ p, (s.proc p).state ≠ .unused → 0 < (s.proc p).pid) ∧
      (∀ p q, (s.proc p).state ≠ .unused → (s.proc q).state ≠ .unused →
        (s.proc p).pid = (s.proc q).pid → p = q) ∧
      ∀ me pid, .forked me pid ∈ tr → 0 < pid := by
  obtain ⟨L, h, N, -⟩ := numbered_keeps.reach (boot_numbered initproc) ok run
  refine ⟨N.pos, N.apart, fun me pid mem => ?_⟩
  obtain ⟨p, alloc⟩ := h.record.forks me pid mem
  exact N.allocs p pid alloc

theorem pids_distinct_child :
    ∃ (tr : List (Ev 2 Unit)) (s : St 2 Unit) (th : Thread 2 Unit → Code 2 Unit),
      ((sys 0).restrict CountsUp).Reach (boot 0) (bootPool 0 (pure ())) tr s th ∧
        .forked 0 2 ∈ tr ∧ (0 : Int) < 2 ∧ (s.proc 0).pid ≠ (s.proc 1).pid := by
  obtain ⟨tr, s, th, run, h⟩ := (mover (0 : Fin 2)
      fun a s => match a with | .claim _ => decide (0 < s.nextpid) | _ => true).exists_reach (startInit ++ forkChild)
    (boot 0) (bootPool 0 (pure ()))
    (fun tr s _ => decide (.forked 0 2 ∈ tr) && decide ((s.proc 0).state = .running) &&
      decide ((s.proc 1).state = .runnable))
    (List.forall_mem_append.mpr ⟨startInit_ok, forkChild_ok⟩) (by decide +kernel)
  simp only [Bool.and_eq_true, decide_eq_true_eq] at h
  obtain ⟨⟨forked, running⟩, runnable⟩ := h
  have up : ((sys 0).restrict CountsUp).Reach (boot 0) (bootPool 0 (pure ())) tr s th := by
    refine run.weaken fun i a s passed => ?_
    rintro p rfl
    exact of_decide_eq_true passed
  obtain ⟨-, apart, positive⟩ := pids_distinct disciplined_nothing up
  refine ⟨tr, s, th, up, forked, positive 0 2 forked, fun same => ?_⟩
  exact absurd (apart 0 1 (by rw [running]; decide) (by rw [runnable]; decide) same) (by decide)

/-! ## The counter wraps -/

/-- init is alone, in user space; `nextpid` is `v`. -/
def alone (v : Int) : St 2 Unit where
  proc p := if p = 0 then { Proc.first with state := .running } else Proc.freed
  cpu _ := { proc := some 0, noff := 0, intena := true, intr := true }
  lock _ := none
  running _ := .proc 0
  nextpid := v
  pc _ := .user

/-- The scheduler is in its round, at init. -/
def alonePool : Thread 2 Unit → Code 2 Unit
  | .proc _ => pure ()
  | .cpu _ => do
    req (.setCpuProc none)
    release (.proc 0)
    forSlots schedule [1]

/-- `fork` fails, for there is no page for a trapframe. -/
def forkFails : List Cmd :=
  .trap (.syscall (.fork (pure ())) (pure ())) :: List.replicate 23 (.step 0) ++ .finish :: List.replicate 4 (.step 0)

theorem forkFails_ok : ∀ c ∈ forkFails, c.Ok := by
  simp only [forkFails, List.cons_append, List.forall_mem_cons, List.forall_mem_append]
  exact ⟨⟨disciplined_nothing, disciplined_nothing⟩, steps_ok 23 0, trivial, steps_ok 4 0⟩

theorem eq_alone {s : St 2 Unit} {v : Int} (init : s.proc 0 = { Proc.first with state := .running })
    (free : s.proc 1 = Proc.freed) (cpu : s.cpu () = { proc := some 0, noff := 0, intena := true, intr := true })
    (lock : ∀ lk, s.lock lk = none) (running : s.running () = .proc 0) (nextpid : s.nextpid = v)
    (pc : s.pc 0 = .user ∧ s.pc 1 = .user) : s = alone v := by
  obtain ⟨proc, cpus, locks, runs, next, labels⟩ := s
  obtain ⟨here, there⟩ := pc
  obtain rfl : next = v := nextpid
  rw [alone, St.mk.injEq]
  refine ⟨?_, funext fun _ => cpu, funext lock, funext fun _ => running, rfl, ?_⟩
  · funext p
    match p with
    | 0 => exact init
    | 1 => exact free
  · funext p
    match p with
    | 0 => exact here
    | 1 => exact there

theorem eq_alonePool {th : Thread 2 Unit → Code 2 Unit} (init : th (.proc 0) = pure ()) (free : th (.proc 1) = pure ())
    (cpu : th (.cpu ()) = alonePool (.cpu ())) : th = alonePool := by
  funext t
  match t with
  | .proc 0 => exact init
  | .proc 1 => exact free
  | .cpu () => exact cpu

/-- The result of a computation in which init is alone. -/
theorem exists_alone {v : Int} {x : Option (List (Ev 2 Unit) × St 2 Unit × (Thread 2 Unit → Code 2 Unit))}
    (proc : x.map (fun x => (x.2.1.proc 0, x.2.1.proc 1, x.2.1.nextpid)) =
      some ({ Proc.first with state := .running }, Proc.freed, v))
    (cpu : x.map (fun x => (x.2.1.cpu (), x.2.1.running (), x.2.1.pc 0, x.2.1.pc 1)) =
      some ({ proc := some 0, noff := 0, intena := true, intr := true }, .proc 0, .user, .user))
    (lock : ∀ lk, x.map (fun x => x.2.1.lock lk) = some none)
    (pool : x.map (fun x => (x.2.2 (.proc 0), x.2.2 (.proc 1), x.2.2 (.cpu ()))) =
      some (pure (), pure (), alonePool (.cpu ()))) : ∃ tr, x = some (tr, alone v, alonePool) := by
  cases x with
  | none => cases proc
  | some x =>
    simp only [Option.map_some, Option.some.injEq, Prod.mk.injEq] at proc cpu lock pool
    obtain ⟨tr, s, th⟩ := x
    obtain ⟨init, free, nextpid⟩ := proc
    obtain ⟨cpu, running, pc⟩ := cpu
    obtain rfl : s = alone v := eq_alone init free cpu lock running nextpid pc
    obtain rfl : th = alonePool := eq_alonePool pool.1 pool.2.1 pool.2.2
    exact ⟨tr, rfl⟩

section Runs

set_option maxRecDepth 4000

theorem startInit_alone : ∃ tr, (sys 0).Reach (boot 0) (bootPool 0 (pure ())) tr (alone 2) alonePool := by
  have lock : ∀ lk, ((mover (0 : Fin 2) fun _ _ => true).play startInit [] (boot 0) (bootPool 0 (pure ()))).map
      (fun x => x.2.1.lock lk) = some none := by
    intro lk
    match lk with
    | .wait => rfl
    | .proc 0 => rfl
    | .proc 1 => rfl
    | .other k => rfl
  obtain ⟨tr, played⟩ := exists_alone rfl rfl lock rfl
  exact ⟨tr, ((mover 0 fun _ _ => true).play_reach startInit_ok .init played).of_restrict⟩

/-- A `fork` that fails uses up a pid and changes nothing else. -/
theorem forkFails_alone (v : Int) :
    ∃ tr, (sys 0).Reach (alone v) alonePool tr (alone (addInt v 1)) alonePool := by
  have lock : ∀ lk, ((mover (0 : Fin 2) fun _ _ => true).play forkFails [] (alone v) alonePool).map
      (fun x => x.2.1.lock lk) = some none := by
    intro lk
    match lk with
    | .wait => rfl
    | .proc 0 => rfl
    | .proc 1 => rfl
    | .other k => rfl
  obtain ⟨tr, played⟩ := exists_alone rfl rfl lock rfl
  exact ⟨tr, ((mover 0 fun _ _ => true).play_reach forkFails_ok .init played).of_restrict⟩

end Runs

theorem alone_reach (k : Nat) :
    ∃ tr, (sys 0).Reach (alone 2) alonePool tr (alone (addInt 2 k)) alonePool := by
  induction k with
  | zero => exact ⟨[], .init⟩
  | succ k ih =>
    obtain ⟨tr, before⟩ := ih
    obtain ⟨tr', again⟩ := forkFails_alone (addInt 2 k)
    have next : addInt (addInt 2 k) 1 = addInt 2 (k + 1 : Nat) := by
      simp only [addInt, Int.bmod_add_bmod, Nat.cast_add, Nat.cast_one, Int.add_assoc]
    rw [next] at again
    exact ⟨tr ++ tr', before.trans again⟩

/-- After 2^31 - 2 calls of `fork` that fail, the child of the next one has a negative pid, and
that is what `fork` returns. -/
theorem fork_returns_negative :
    ∃ (tr : List (Ev 2 Unit)) (s : St 2 Unit) (th : Thread 2 Unit → Code 2 Unit),
      (sys 0).Reach (boot 0) (bootPool 0 (pure ())) tr s th ∧
        .forked 0 (-2147483648) ∈ tr ∧ (s.proc 1).state = .runnable ∧ (s.proc 1).pid = -2147483648 := by
  obtain ⟨tr, start⟩ := startInit_alone
  obtain ⟨tr', wrapped⟩ := alone_reach (2 ^ 31 - 2)
  rw [show addInt 2 ((2 ^ 31 - 2 : Nat) : Int) = -2147483648 by decide] at wrapped
  obtain ⟨tr'', s, th, run, h⟩ := (mover (0 : Fin 2) fun _ _ => true).exists_reach forkChild (alone (-2147483648))
    alonePool (fun tr s _ => decide (.forked 0 (-2147483648) ∈ tr) && decide ((s.proc 1).state = .runnable) &&
      decide ((s.proc 1).pid = -2147483648)) forkChild_ok (by decide +kernel)
  simp only [Bool.and_eq_true, decide_eq_true_eq] at h
  obtain ⟨⟨forked, state⟩, pid⟩ := h
  exact ⟨_, s, th, (start.trans wrapped).trans run.of_restrict, List.mem_append_right _ forked, state, pid⟩

end Xv6.Process
