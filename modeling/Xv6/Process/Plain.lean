import Xv6.Interleave.Heeds
import Xv6.Process.Model

/-!
# Which code does what

Spinlocks touch the lock and the CPU. Priorities are given by `fork` and `sys_setpriority`, fields of
other processes are followed by `sys_getprocinfo`; all other code of the kernel does neither.
-/

namespace Xv6.Process

open Interleave Prog

variable {n : Nat} {κ : Type} {α : Type} {initproc me : Fin n}

/-- What spinlocks do, and code that asks the rest of the kernel. -/
def Act.spins : Act n → Bool
  | .pushOff | .popOff | .holding _ | .lock _ | .unlock _ | .mycpu | .choose | .panic _ => true
  | _ => false

/-- All that gives no priority and is not part of `sys_getprocinfo`. -/
def Act.plain : Act n → Bool
  | .setPriority _ _ | .priorityOne _ _ _ | .info _ _ => false
  | _ => true

def Spins (p : Code n α) : Prop := p.heeds (fun a => a.spins = true) fun _ _ => True

def Plain (p : Code n α) : Prop := p.heeds (fun a => a.plain = true) fun _ _ => True

theorem Spins.plain {p : Code n α} (h : Spins p) : Plain p := by
  refine heeds_mono h (fun a spins => ?_) fun _ _ => id
  cases a <;> first | rfl | cases spins

/-! ## Spinlocks -/

theorem acquire_spins (lk : Lock n) : Spins (acquire lk) := by
  refine heeds_act rfl fun _ _ => heeds_act rfl fun (held : Bool) _ => ?_
  cases held with
  | true => exact ⟨rfl, nofun⟩
  | false => exact heeds_call rfl

theorem popOff_spins : Spins (popOff : Code n Unit) := by
  refine heeds_act rfl fun (c : Cpu n) _ => ?_
  split
  · exact ⟨rfl, nofun⟩
  · split
    · exact ⟨rfl, nofun⟩
    · exact heeds_call rfl

theorem release_spins (lk : Lock n) : Spins (release lk) := by
  refine heeds_act rfl fun (held : Bool) _ => ?_
  cases held with
  | true => exact heeds_act rfl fun _ _ => popOff_spins
  | false => exact ⟨rfl, nofun⟩

/-! ## The rest -/

section Plain

theorem acquire_plain (lk : Lock n) : Plain (acquire lk) := (acquire_spins lk).plain

theorem release_plain (lk : Lock n) : Plain (release lk) := (release_spins lk).plain

theorem panic_plain (msg : String) : Plain (panic msg : Code n α) := ⟨rfl, nofun⟩

theorem plain_bind {β : Type} {p : Code n α} {f : α → Code n β} (first : Plain p) (rest : ∀ x, Plain (f x)) :
    Plain (p >>= f) := heeds_bind first rest

theorem plain_req {β : Type} {a : Act n} {f : Res a → Code n β} (first : a.plain = true) (rest : ∀ r, Plain (f r)) :
    Plain (req a >>= f) := heeds_act first fun r _ => rest r

theorem plain_pure (x : α) : Plain (pure x : Code n α) := trivial

theorem plain_last {a : Act n} (h : a.plain = true) : Plain (req a) := heeds_call h

theorem plain_succeeds {β : Type} {f : Bool → Code n β} (rest : ∀ b, Plain (f b)) : Plain (succeeds >>= f) :=
  plain_req (a := .choose) rfl fun k => rest (decide ((k : Nat) ≠ 0))

theorem forSlots_plain {body : Fin n → Code n Unit} (each : ∀ p, Plain (body p)) (ps : List (Fin n)) :
    Plain (forSlots body ps) := by
  induction ps with
  | nil => exact plain_pure ()
  | cons p ps ih => exact plain_bind (each p) fun _ => ih

theorem sched_plain (me : Fin n) : Plain (sched me) := by
  refine plain_req rfl fun (held : Bool) => ?_
  cases held with
  | false => exact panic_plain _
  | true =>
    refine plain_req rfl fun (c : Cpu n) => ?_
    split
    · exact panic_plain _
    refine plain_req rfl fun (p : Proc n) => ?_
    split
    · exact panic_plain _
    refine plain_req rfl fun (c : Cpu n) => ?_
    split
    · exact panic_plain _
    · exact plain_req rfl fun (c : Cpu n) => plain_req rfl fun _ => plain_last rfl

theorem yield_plain (me : Fin n) : Plain (yield me) :=
  plain_bind (acquire_plain _) fun _ => plain_req rfl fun _ => plain_bind (sched_plain me) fun _ => release_plain _

theorem sleep_plain (me : Fin n) (chan : Chan n) (lk : Lock n) : Plain (sleep me chan lk) :=
  plain_bind (acquire_plain _) fun _ => plain_bind (release_plain _) fun _ => plain_req rfl fun _ =>
    plain_req rfl fun _ => plain_bind (sched_plain me) fun _ => plain_req rfl fun _ =>
    plain_bind (release_plain _) fun _ => acquire_plain _

theorem wakeup_plain (me : Option (Fin n)) (chan : Option (Chan n)) : Plain (wakeup me chan) := by
  refine forSlots_plain (fun p => ?_) _
  rw [wakeupOne]
  split
  · exact plain_last rfl
  · exact plain_pure ()

theorem kill_plain (pid : Int) : Plain (kill pid : Code n Int) := by
  have each : ∀ ps : List (Fin n), Plain (killFrom pid ps) := by
    intro ps
    induction ps with
    | nil => exact plain_pure _
    | cons p ps ih =>
      refine plain_req rfl fun (hit : Bool) => ?_
      cases hit with
      | true => exact plain_pure _
      | false => exact ih
  exact each _

theorem client_plain (me : Option (Fin n)) (c : Client) : Plain (c.code me) := by
  refine heeds_interp (fun a => ?_) c
  cases a with
  | acquire k => exact acquire_plain _
  | release k => exact release_plain _
  | sleep chan k =>
    cases me with
    | none => exact plain_pure ()
    | some p => exact sleep_plain p _ _
  | wakeup chan => exact wakeup_plain me _
  | choose => exact plain_last rfl

/-- Code that `fork` runs with a `p->lock` held uses spinlocks only. -/
theorem client_spins (me : Option (Fin n)) {c : Client} (ok : c.Disciplined .none) : Spins (c.code me) := by
  refine heeds_interp_of_wp (fun a hs may => ?_) (fun a hs r => ?_) ok
  · cases a with
    | acquire k => exact acquire_spins _
    | release k => exact release_spins _
    | sleep chan k => exact absurd may.1 nofun
    | wakeup chan => exact absurd rfl may
    | choose => exact heeds_call rfl
  · cases a with
    | acquire k => exact ⟨k :: hs, rfl⟩
    | release k => exact ⟨hs.erase k, rfl⟩
    | _ => exact ⟨hs, rfl⟩

theorem allocproc_plain : Plain (allocproc : Code n (Option (Fin n))) := by
  have found : ∀ p : Fin n, Plain (allocprocFound p) := by
    intro p
    have undo : Plain (do req (.freeproc p); release (.proc p); return none : Code n (Option (Fin n))) :=
      plain_req rfl fun _ => plain_bind (release_plain _) fun _ => plain_pure _
    refine plain_req rfl fun _ => plain_succeeds fun b => ?_
    cases b with
    | false => exact undo
    | true =>
      refine plain_succeeds fun b => ?_
      cases b with
      | false => exact undo
      | true => exact plain_req rfl fun _ => plain_pure _
  have each : ∀ ps : List (Fin n), Plain (allocprocFrom ps) := by
    intro ps
    induction ps with
    | nil => exact plain_pure _
    | cons p ps ih =>
      refine plain_bind (acquire_plain _) fun _ => plain_req rfl fun (x : Proc n) => ?_
      split
      · exact found p
      · exact plain_bind (release_plain _) fun _ => ih
  exact each _

theorem exit_plain (close : Client) (status : Int) : Plain (exit initproc me close status) := by
  rw [exit]
  split
  · exact panic_plain _
  have one : ∀ pp, Plain (reparentOne initproc me pp) := by
    intro pp
    refine plain_req rfl fun (x : Proc n) => ?_
    split
    · exact plain_req rfl fun _ => wakeup_plain _ _
    · exact plain_pure ()
  refine plain_bind (client_plain _ close) fun _ => plain_bind (acquire_plain _) fun _ => ?_
  refine plain_bind (forSlots_plain one _) fun _ => plain_req rfl fun (p : Proc n) => ?_
  exact plain_bind (wakeup_plain _ _) fun _ => plain_bind (acquire_plain _) fun _ => plain_req rfl fun _ =>
    plain_req rfl fun _ => plain_bind (release_plain _) fun _ => plain_bind (sched_plain me) fun _ => panic_plain _

theorem wait_plain (addr : Nat) : Plain (wait me addr) :=
  plain_bind (acquire_plain _) fun _ => plain_last rfl

theorem waitRound_plain (addr : Nat) : Plain (waitRound me addr) := by
  have fails : Plain (waitFail me) := plain_bind (release_plain _) fun _ => plain_last rfl
  have returns : ∀ pid status, Plain (waitReturn me pid status) := fun _ _ =>
    plain_bind (release_plain _) fun _ => plain_req rfl fun _ => plain_last rfl
  have each : ∀ (ps : List (Fin n)) (havekids : Bool), Plain (waitFrom me addr ps havekids) := by
    intro ps
    induction ps with
    | nil =>
      intro havekids
      refine plain_req rfl fun (p : Proc n) => ?_
      split
      · exact fails
      · exact plain_bind (sleep_plain me _ _) fun _ => plain_last rfl
    | cons np ps ih =>
      intro havekids
      refine plain_req rfl fun (x : Proc n) => ?_
      split
      · refine plain_bind (acquire_plain _) fun _ => plain_req rfl fun (x : Proc n) => ?_
        split
        · have copied : Plain (if addr = 0 then pure true else succeeds : Code n Bool) := by
            split
            · exact plain_pure _
            · exact plain_req (a := .choose) rfl fun _ => plain_pure _
          refine plain_bind copied fun b => ?_
          cases b with
          | true => exact plain_req rfl fun _ => plain_bind (release_plain _) fun _ => returns _ _
          | false => exact plain_bind (release_plain _) fun _ => fails
        · exact plain_bind (release_plain _) fun _ => ih true
      · exact ih havekids
  exact each _ _

theorem scheduler_plain : Plain (scheduler : Code n Unit) := by
  refine plain_req rfl fun _ => forSlots_plain (fun p => ?_) _
  refine plain_bind (acquire_plain _) fun _ => plain_req rfl fun (x : Proc n) => ?_
  split
  · exact plain_req rfl fun _ => plain_req rfl fun _ => plain_req rfl fun _ => plain_req rfl fun _ => release_plain _
  · exact release_plain _

theorem usertrapret_plain : Plain (usertrapret me) :=
  plain_req rfl fun _ => plain_req rfl fun _ => plain_last rfl

theorem forkret_plain (first : Client) : Plain (forkret me first) :=
  plain_bind (release_plain _) fun _ => plain_bind (client_plain _ first) fun _ => usertrapret_plain

theorem trapEnd_plain (close : Client) : Plain (trapEnd initproc me close) := by
  refine plain_req rfl fun (p : Proc n) => ?_
  split
  · exact exit_plain close _
  · exact usertrapret_plain

theorem kerneltrap_plain (me : Option (Fin n)) (handler : Client) (timer : Bool) :
    Plain (kerneltrap me handler timer) := by
  have sret : Plain (req .intrOn : Code n Unit) := plain_last rfl
  refine plain_bind (client_plain me handler) fun _ => plain_req rfl fun (c : Cpu n) => ?_
  dsimp only
  split
  · refine plain_req rfl fun (x : Proc n) => ?_
    split
    · exact plain_bind (yield_plain _) fun _ => sret
    · exact plain_bind (plain_pure ()) fun _ => sret
  · exact plain_bind (plain_pure ()) fun _ => sret

end Plain

/-! ## What a thread may start -/

variable {ok : Act n → Prop} {told : (a : Act n) → Res a → Prop}

/-- Plain code heeds every rule that allows plain actions. -/
theorem Plain.heeds (easy : ∀ a : Act n, a.plain = true → ok a) {p : Code n α} (h : Plain p) : p.heeds ok told :=
  heeds_mono h easy fun _ _ _ => trivial

/-- `fork` gives the child the priority that it has read. -/
theorem fork_heeds (easy : ∀ a : Act n, a.plain = true → ok a)
    (gives : ∀ (np : Fin n) (p : Proc n), told (.read me) p → ok (.setPriority np p.priority)) (dup : Client) :
    (fork me dup).heeds ok told := by
  refine heeds_bind (allocproc_plain.heeds easy) fun np => ?_
  cases np with
  | none => exact heeds_pure ()
  | some np =>
    refine heeds_act (easy _ rfl) fun (k : Nat) _ => ?_
    dsimp only
    split
    · refine heeds_bind ((client_plain _ dup).heeds easy) fun _ => ?_
      refine heeds_act (easy _ rfl) fun (p : Proc n) read => heeds_act (gives np p read) fun _ _ => ?_
      refine Plain.heeds easy (plain_req rfl fun (x : Proc n) => ?_)
      exact plain_bind (release_plain _) fun _ => plain_bind (acquire_plain _) fun _ => plain_req rfl fun _ =>
        plain_bind (release_plain _) fun _ => plain_bind (acquire_plain _) fun _ => plain_req rfl fun _ =>
        plain_bind (release_plain _) fun _ => plain_last rfl
    · exact (plain_req rfl fun _ => release_plain _).heeds easy

theorem sysSetpriority_heeds {pid priority : Int}
    (gives : 0 ≤ priority → priority ≤ 10 → ∀ p : Fin n, ok (.priorityOne pid priority p)) :
    (sysSetpriority pid priority : Code n Int).heeds ok told := by
  rw [sysSetpriority]
  split
  · exact heeds_pure _
  have each : ∀ ps : List (Fin n), (setpriorityFrom pid priority ps).heeds ok told := by
    intro ps
    induction ps with
    | nil => exact heeds_pure _
    | cons p ps ih =>
      refine heeds_act (gives (by omega) (by omega) p) fun (hit : Bool) _ => ?_
      cases hit with
      | true => exact heeds_pure _
      | false => exact ih
  exact each _

theorem sysGetprocinfo_heeds (easy : ∀ a : Act n, a.plain = true → ok a) (informs : ∀ i, ok (.info me i)) :
    (sysGetprocinfo me).heeds ok told := by
  have follows : (parentPid me).heeds ok told := by
    refine heeds_act (informs .parent) fun (q : Option (Fin n)) _ => ?_
    cases q with
    | none => exact heeds_pure _
    | some _ =>
      refine heeds_act (informs .parent) fun (q : Option (Fin n)) _ => ?_
      cases q with
      | none => exact (panic_plain _).heeds easy
      | some q => exact heeds_call (informs (.ppid q))
  refine heeds_act (informs .pid) fun pid _ => heeds_bind follows fun ppid => heeds_act (easy _ rfl) fun (p : Proc n) _ => ?_
  refine heeds_act (easy _ rfl) fun (k : Nat) _ => ?_
  dsimp only
  split
  · exact heeds_call (informs _)
  · exact heeds_pure ()

/-- A trap heeds a rule that allows plain actions, if its system call does. -/
theorem usertrap_heeds (easy : ∀ a : Act n, a.plain = true → ok a) {trap : Trap}
    (call : ∀ call close, trap = .syscall call close → (call.code initproc me).heeds ok told) :
    (usertrap initproc me trap).heeds ok told := by
  cases trap with
  | syscall c close =>
    refine heeds_act (easy _ rfl) fun _ _ => heeds_act (easy _ rfl) fun (p : Proc n) _ => ?_
    split
    · exact (exit_plain close _).heeds easy
    · exact heeds_act (easy _ rfl) fun _ _ => call c close rfl
  | device handler close =>
    exact (plain_req rfl fun _ => plain_bind (client_plain _ handler) fun _ => trapEnd_plain close).heeds easy
  | timer handler close =>
    refine Plain.heeds easy (plain_req rfl fun _ => plain_bind (client_plain _ handler) fun _ => ?_)
    refine plain_req rfl fun (p : Proc n) => ?_
    split
    · exact exit_plain close _
    · exact plain_bind (yield_plain me) fun _ => usertrapret_plain
  | fault close =>
    exact (plain_req rfl fun _ => plain_req rfl fun _ => trapEnd_plain close).heeds easy

/-- The three system calls that are not plain decide about all of them. -/
theorem syscall_heeds (easy : ∀ a : Act n, a.plain = true → ok a) {call : Syscall}
    (forks : ∀ dup, call = .fork dup → (fork me dup).heeds ok told)
    (sets : ∀ pid priority, call = .setpriority pid priority → (sysSetpriority pid priority : Code n Int).heeds ok told)
    (informs : call = .getprocinfo → (sysGetprocinfo me).heeds ok told) : (call.code initproc me).heeds ok told := by
  have back : Plain (req (.goto me .trapEnd)) := plain_last rfl
  cases call with
  | fork dup => exact heeds_bind (forks dup rfl) fun _ => back.heeds easy
  | exit close status => exact (exit_plain close status).heeds easy
  | wait addr => exact (wait_plain addr).heeds easy
  | kill pid => exact (plain_bind (kill_plain pid) fun _ => back).heeds easy
  | setpriority pid priority => exact heeds_bind (sets pid priority rfl) fun _ => back.heeds easy
  | getprocinfo => exact heeds_bind (informs rfl) fun _ => back.heeds easy
  | other c => exact (plain_bind (client_plain _ c) fun _ => back).heeds easy

/-- What a thread starts is plain, or a trap. -/
theorem calls_cases {t : Thread n κ} {s : St n κ} {p : Code n Unit} (h : calls initproc t s p) :
    Plain p ∨ ∃ me trap, t = .proc me ∧ p = usertrap initproc me trap := by
  cases t with
  | cpu c =>
    rw [h.2]
    exact Or.inl scheduler_plain
  | proc me =>
    obtain ⟨-, starts⟩ := h
    split at starts
    · obtain ⟨trap, -, rfl⟩ := starts
      exact Or.inr ⟨me, trap, rfl, rfl⟩
    · obtain ⟨close, -, rfl⟩ := starts
      exact Or.inl (trapEnd_plain close)
    · rw [starts]
      exact Or.inl (waitRound_plain _)

/-- The environment leaves a thread alone, puts plain code before its code or in its place, or takes
its `setContext` away. -/
theorem env_cases [DecidableEq κ] {s s' : St n κ} {th th' : Thread n κ → Code n Unit} {o : List (Ev n κ)}
    (h : Env s th o s' th') (t : Thread n κ) :
    th' t = th t ∨ (∃ q : Code n Unit, Plain q ∧ th' t = q >>= fun _ => th t) ∨ Plain (th' t) ∨
      ∃ p k, th t = .act (.setContext p) k ∧ th' t = k () := by
  cases h with
  | @interrupt c u a k handler timer running on code fine =>
    by_cases here : t = u
    · subst here
      exact Or.inr (Or.inl ⟨_, kerneltrap_plain _ handler timer, Function.update_self _ _ _⟩)
    · exact Or.inl (Function.update_of_ne here _ _)
  | @setContext c u p k running code =>
    by_cases new : t = .proc p
    · subst new
      rw [Function.update_self]
      exact Or.inr (Or.inr (Or.inl (forkret_plain _)))
    · rw [Function.update_of_ne new]
      by_cases here : t = u
      · subst here
        exact Or.inr (Or.inr (Or.inr ⟨p, k, code, Function.update_self _ _ _⟩))
      · exact Or.inl (Function.update_of_ne here _ _)

theorem bootPool_plain (initproc : Fin n) (fsinit : Client) (t : Thread n κ) :
    Plain (bootPool initproc fsinit t : Code n Unit) := by
  cases t with
  | cpu c => exact plain_pure ()
  | proc p =>
    rw [bootPool]
    split
    · exact forkret_plain fsinit
    · exact plain_pure ()

end Xv6.Process
