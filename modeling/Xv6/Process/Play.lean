import Xv6.Interleave.Run
import Xv6.Process.Model

/-!
# Computed runs of the machine

Commands for a machine with one CPU: the thread it executes takes a step, starts what the kernel
has for it, or sets the context of a new process. Evaluating a list of commands exhibits a run,
all of whose actions pass a test.
-/

namespace Xv6.Process

open Interleave

variable {n : Nat}

/-- Computes an action; `answer` is what `choose` answers. -/
def cpuStep (answer : Nat) : (a : Act n) → St n Unit → Option (Res a × St n Unit)
  | .pushOff, s => some ((), s.setCpu () (s.cpu ()).pushOff)
  | .popOff, s => some ((), s.setCpu () (s.cpu ()).popOff)
  | .holding lk, s => some (decide (s.lock lk = some ()), s)
  | .lock lk, s => if s.lock lk = none then some ((), s.setLock lk (some ())) else none
  | .unlock lk, s => some ((), s.setLock lk none)
  | .intrOn, s => some ((), s.setCpu () { s.cpu () with intr := true })
  | .intrOff, s => some ((), s.setCpu () { s.cpu () with intr := false })
  | .mycpu, s => some (s.cpu (), s)
  | .setIntena intena, s => some ((), s.setCpu () { s.cpu () with intena := intena })
  | .setCpuProc p, s => some ((), s.setCpu () { s.cpu () with proc := p })
  | .resume p, s => some ((), s.setRunning () (.proc p))
  | .suspend, s => some ((), s.setRunning () (.cpu ()))
  | .read p, s => some (s.proc p, s)
  | .setState p st, s => some ((), s.setProc p { s.proc p with state := st })
  | .setRunning p, s => some ((), s.setProc p { s.proc p with state := .running })
  | .setRunnable p, s => some ((), s.setProc p { s.proc p with state := .runnable })
  | .setChan p chan, s => some ((), s.setProc p { s.proc p with chan := chan })
  | .setKilled p, s => some ((), s.setProc p { s.proc p with killed := true })
  | .setXstate p status, s => some ((), s.setProc p { s.proc p with xstate := status })
  | .setParent p q, s => some ((), s.setProc p { s.proc p with parent := q })
  | .setPriority p priority, s => some ((), s.setProc p { s.proc p with priority := priority })
  | .wakeOne chan p, s =>
    if s.lock (.proc p) = none then some ((), s.setProc p ((s.proc p).woken chan)) else none
  | .killOne pid p, s =>
    if s.lock (.proc p) = none then
      some (decide ((s.proc p).pid = pid), if (s.proc p).pid = pid then s.setProc p (s.proc p).kill else s)
    else none
  | .priorityOne _ _ _, _ => none
  | .claim p, s =>
    some (s.nextpid, { s.setProc p { s.proc p with pid := s.nextpid, state := .used, priority := 5 } with
      nextpid := addInt s.nextpid 1 })
  | .freeproc p, s => some ((), s.setProc p Proc.freed)
  | .setContext _, _ => none
  | .choose, s => some (answer, s)
  | .waited _ _ _, s => some ((), s)
  | .forked _ _, s => some ((), s)
  | .info p i, s => some (i.answer s.proc p, s)
  | .goto p l, s => some ((), { s with pc := Function.update s.pc p l })
  | .panic _, _ => none

theorem cpuStep_sound {answer : Nat} {a : Act n} {s s' : St n Unit} {r : Res a}
    (h : cpuStep answer a s = some (r, s')) : cpuExec () a s r s' := by
  cases a with
  | lock lk | wakeOne chan p =>
    simp only [cpuStep] at h
    split at h
    · rename_i free
      cases h
      exact ⟨free, rfl⟩
    · cases h
  | killOne pid p =>
    simp only [cpuStep] at h
    split at h
    · rename_i free
      cases h
      exact ⟨free, rfl, rfl⟩
    · cases h
  | holding lk | mycpu | read p | claim p | info p i =>
    cases h
    exact ⟨rfl, rfl⟩
  | priorityOne pid priority p | setContext p | panic msg => cases h
  | _ =>
    cases h
    rfl

/-- What the CPU does next. -/
inductive Cmd where
  /-- The thread takes a step. -/
  | step (answer : Nat)
  /-- A process sets the context of its child. -/
  | context
  /-- The scheduler starts a round. -/
  | schedule
  /-- A process in user space traps. -/
  | trap (t : Trap)
  /-- A process ends its trap; `exit` would close no file. -/
  | finish
  /-- A process looks for children again. -/
  | look
  /-- The timer interrupts kernel code. -/
  | tick

def Cmd.Ok : Cmd → Prop
  | .trap t => t.Ok
  | _ => True

theorem steps_ok (m answer : Nat) : ∀ c ∈ List.replicate m (Cmd.step answer), c.Ok := by
  intro c hc
  rw [List.eq_of_mem_replicate hc]
  trivial

/-- What the thread starts to execute. -/
def Cmd.starts (initproc : Fin n) (cmd : Cmd) (t : Thread n Unit) (pc : Fin n → Label) : Option (Code n Unit) :=
  match t with
  | .cpu () =>
    match cmd with
    | .schedule => some scheduler
    | _ => none
  | .proc me =>
    match cmd, pc me with
    | .trap t, .user => some (usertrap initproc me t)
    | .finish, .trapEnd => some (trapEnd initproc me (pure ()))
    | .look, .waitLoop addr => some (waitRound me addr)
    | _, _ => none

def Cmd.move (initproc : Fin n) (test : Act n → St n Unit → Bool) (cmd : Cmd) (s : St n Unit) (th : Thread n Unit → Code n Unit) :
    Option (List (Ev n Unit) × St n Unit × (Thread n Unit → Code n Unit)) :=
  match th (s.running ()) with
  | .ret () => (cmd.starts initproc (s.running ()) s.pc).map fun p => ([], s, Function.update th (s.running ()) p)
  | .act a k =>
    match cmd with
    | .step answer =>
      match cpuStep answer a s, test a s with
      | some (r, s'), true => some (obs (s.running ()) a s, s', Function.update th (s.running ()) (k r))
      | _, _ => none
    | .context =>
      match a, k with
      | .setContext p, k =>
        some ([], { s with pc := Function.update s.pc p .user },
          Function.update (Function.update th (s.running ()) (k ())) (.proc p) (forkret p (pure ())))
      | _, _ => none
    | .tick =>
      if (s.cpu ()).intr = true then
        some ([], s.setCpu () { s.cpu () with intr := false },
          Function.update th (s.running ()) (kerneltrap (s.running ()).slot (pure ()) true >>= fun _ => th (s.running ())))
      else none
    | _ => none

theorem Cmd.starts_sound {initproc : Fin n} {cmd : Cmd} {s : St n Unit} {p : Code n Unit} (ok : cmd.Ok)
    (h : cmd.starts initproc (s.running ()) s.pc = some p) : calls initproc (s.running ()) s p := by
  cases running : s.running () with
  | cpu c =>
    rw [running] at h
    cases cmd with
    | schedule =>
      cases h
      exact ⟨running, rfl⟩
    | _ => cases h
  | proc me =>
    rw [running] at h
    refine ⟨⟨(), running⟩, ?_⟩
    cases label : s.pc me with
    | user =>
      simp only [starts, label] at h
      cases cmd with
      | trap t =>
        cases h
        exact ⟨t, ok, rfl⟩
      | _ => cases h
    | trapEnd =>
      simp only [starts, label] at h
      cases cmd with
      | finish =>
        cases h
        exact ⟨pure (), rfl, rfl⟩
      | _ => cases h
    | waitLoop addr =>
      simp only [starts, label] at h
      cases cmd with
      | look =>
        cases h
        rfl
      | _ => cases h

theorem Cmd.move_sound {initproc : Fin n} {test : Act n → St n Unit → Bool} {cmd : Cmd} {s s' : St n Unit}
    {th th' : Thread n Unit → Code n Unit} {o : List (Ev n Unit)} (ok : cmd.Ok)
    (h : cmd.move initproc test s th = some (o, s', th')) :
    ((sys initproc).restrict fun _ a s => test a s = true).Step s th o s' th' := by
  rw [move] at h
  split at h
  · rename_i idle
    obtain ⟨p, starts, heq⟩ := Option.map_eq_some_iff.mp h
    cases heq
    exact .call idle (starts_sound ok starts)
  · rename_i a k code
    cases cmd with
    | step answer =>
      dsimp only at h
      split at h
      · rename_i r s₁ exec passed
        cases h
        exact .run (M := (sys initproc).restrict fun _ a s => test a s = true) code
          ⟨passed, (), rfl, cpuStep_sound exec⟩
      · cases h
    | context =>
      dsimp only at h
      split at h
      · cases h
        exact .env (.setContext rfl code)
      · cases h
    | tick =>
      dsimp only at h
      split at h
      · rename_i on
        cases h
        exact .env (.interrupt rfl on code rfl)
      · cases h
    | _ => cases h

def mover (initproc : Fin n) (test : Act n → St n Unit → Bool) :
    Mover ((sys initproc : Sys (Thread n Unit) (Act n) Res (St n Unit) (Ev n Unit)).restrict
      fun _ a s => test a s = true) Cmd where
  move := Cmd.move initproc test
  allowed := Cmd.Ok
  sound := Cmd.move_sound

end Xv6.Process
