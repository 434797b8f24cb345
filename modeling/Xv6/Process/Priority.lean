import Xv6.Process.Pids
import Xv6.Process.Plain

/-!
# Priorities

A process has a priority from 0 to 10: 5 when it is created, its parent's when it comes from `fork`,
and what `sys_setpriority` gives it. The call looks for a pid in all slots of the table, and the pid
of a free slot is 0: with pid 0 it finds one, changes it and reports success.
-/

namespace Xv6.Process

open Interleave Prog

variable {n : Nat} {κ : Type} [DecidableEq κ] {initproc me : Fin n} {fsinit : Client}
variable {s s' : St n κ} {L : Thread n κ → Gh n κ} {i t : Thread n κ} {c : κ} {a : Act n}
variable {r : Res a} {tr : List (Ev n κ)} {p q : Fin n} {th : Thread n κ → Code n Unit}

/-! ## The range -/

/-- The priorities that `sys_setpriority` accepts. -/
def InRange (priority : Int) : Prop := 0 ≤ priority ∧ priority ≤ 10

/-- Only priorities in the range are given. -/
def GivesRange : Act n → Prop
  | .setPriority _ priority | .priorityOne _ priority _ => InRange priority
  | _ => True

def ReadsRange : (a : Act n) → Res a → Prop
  | .read _, x => InRange x.priority
  | _, _ => True

def Ranged (s : St n κ) : Prop := ∀ p, InRange (s.proc p).priority

omit [DecidableEq κ] in
theorem Ranged.setProc (h : Ranged s) {x : Proc n} (here : InRange x.priority) : Ranged (s.setProc p x) := by
  intro q
  by_cases self : q = p
  · subst self
    simpa [St.setProc] using here
  · simpa [St.setProc, Function.update_of_ne self] using h q

theorem Ranged.step (h : Ranged s) (gives : GivesRange a) (hx : cpuExec c a s r s') : ReadsRange a r ∧ Ranged s' := by
  cases a with
  | read p =>
    obtain ⟨rfl, rfl⟩ := hx
    exact ⟨h p, h⟩
  | setPriority p priority =>
    cases hx
    exact ⟨trivial, h.setProc gives⟩
  | priorityOne pid priority p =>
    obtain ⟨-, -, rfl⟩ := hx
    refine ⟨trivial, ?_⟩
    split
    · exact h.setProc gives
    · exact h
  | killOne pid p =>
    obtain ⟨-, -, rfl⟩ := hx
    refine ⟨trivial, ?_⟩
    split
    · exact h.setProc (h p)
    · exact h
  | wakeOne chan p =>
    obtain ⟨-, rfl⟩ := hx
    refine ⟨trivial, h.setProc ?_⟩
    rw [Proc.woken]
    split <;> exact h p
  | claim p =>
    obtain ⟨rfl, rfl⟩ := hx
    have five : InRange 5 := ⟨by decide, by decide⟩
    exact ⟨trivial, Ranged.setProc (p := p) h five⟩
  | freeproc p =>
    cases hx
    have zero : InRange 0 := ⟨by decide, by decide⟩
    exact ⟨trivial, h.setProc zero⟩
  | setState p _ | setRunning p | setRunnable p | setChan p _ | setKilled p | setXstate p _ | setParent p _ =>
    cases hx
    exact ⟨trivial, h.setProc (h p)⟩
  | setContext | panic => exact hx.elim
  | _ =>
    refine ⟨trivial, fun q => ?_⟩
    rw [cpuExec_proc hx rfl]
    exact h q

theorem plain_gives : ∀ a : Act n, a.plain = true → GivesRange a := by
  intro a plain
  cases a <;> trivial

/-- Every priority is in the range, along every run. -/
theorem reach_ranged (run : (sys initproc).Reach (boot initproc) (bootPool initproc fsinit) tr s th) : Ranged s := by
  have exec : ∀ (i : Thread n κ) a s r s', GivesRange a → Ranged s → exec i a s r s' → ReadsRange a r ∧ Ranged s' := by
    rintro i a s r s' gives h ⟨c, -, hx⟩
    exact h.step gives hx
  have calls : ∀ (t : Thread n κ) s p, calls initproc t s p → p.heeds GivesRange ReadsRange := by
    intro t s p h
    rcases calls_cases h with plain | ⟨me, trap, -, rfl⟩
    · exact plain.heeds plain_gives
    refine usertrap_heeds plain_gives fun call _ _ => ?_
    exact syscall_heeds plain_gives (fun dup _ => fork_heeds plain_gives (fun _ _ range => range) dup)
      (fun pid priority _ => sysSetpriority_heeds fun low high _ => ⟨low, high⟩)
      fun _ => sysGetprocinfo_heeds plain_gives fun _ => trivial
  have env : ∀ (s : St n κ) th o s' th', Ranged s → (∀ t, (th t).heeds GivesRange ReadsRange) → Env s th o s' th' →
      Ranged s' ∧ ∀ t, (th' t).heeds GivesRange ReadsRange := by
    intro s th o s' th' h all moves
    constructor
    · cases moves <;> exact h
    · intro t
      rcases env_cases moves t with same | ⟨q, plain, before⟩ | plain | ⟨p, k, code, rest⟩
      · rw [same]
        exact all t
      · rw [before]
        exact heeds_bind (plain.heeds plain_gives) fun _ => all t
      · exact plain.heeds plain_gives
      · have here := all t
        rw [code] at here
        rw [rest]
        exact here.2 () trivial
  have start : Ranged (boot initproc : St n κ) := by
    intro p
    rcases boot_cases κ initproc p with ⟨-, h, -⟩ | ⟨-, h, -⟩ <;> rw [h]
    · exact ⟨show (0 : Int) ≤ 5 by decide, show (5 : Int) ≤ 10 by decide⟩
    · exact ⟨show (0 : Int) ≤ 0 by decide, show (0 : Int) ≤ 10 by decide⟩
  exact (run.heeds exec calls env start fun t => (bootPool_plain initproc fsinit t).heeds plain_gives).1

/-! ## Free slots -/

/-- The pid of an unused slot is 0. -/
def Vacant (s : St n κ) : Prop := ∀ p, (s.proc p).state = .unused → (s.proc p).pid = 0

omit [DecidableEq κ] in
theorem Change.vacant {y : Proc n} (h : Change s a q y) (before : (s.proc q).state = .unused → (s.proc q).pid = 0)
    (unused : y.state = .unused) : y.pid = 0 := by
  cases h with
  | keeps pid _ same _ =>
    rw [pid]
    exact before (same.mp unused)
  | exits _ _ becomes | claimed _ _ becomes =>
    rw [becomes] at unused
    cases unused
  | killed _ becomes =>
    subst becomes
    refine before ?_
    simp only [Proc.kill] at unused
    split at unused
    · cases unused
    · exact unused
  | faults _ running becomes =>
    rw [becomes] at unused
    exact absurd (running.symm.trans unused) (by decide)
  | freed _ _ becomes =>
    rw [becomes]
    rfl

/-- No condition on the steps. -/
theorem vacant_keeps : Keeps initproc (fun _ _ _ => True : Thread n κ → Act n → St n κ → Prop) fun _ s _ => Vacant s where
  step h V ok _ hc hx q := (h.change ok hc hx q).vacant (V q)
  env := by
    intro tr s L s' L' _ V moves
    rcases moves with ⟨c, x, rfl, -⟩ | ⟨t, p, -, rfl, -⟩ <;> exact V

theorem reach_vacant (ok : fsinit.Disciplined .sleep)
    (run : (sys initproc).Reach (boot initproc) (bootPool initproc fsinit) tr s th) :
    ∃ L, Inv initproc tr s L ∧ Vacant s := by
  have start : Vacant (boot initproc : St n κ) := by
    intro p unused
    rcases boot_cases κ initproc p with ⟨-, h, -⟩ | ⟨-, h, -⟩ <;> rw [h] at unused ⊢
    · cases unused
    · rfl
  have free : ((sys initproc).restrict fun _ _ _ => True).Reach (boot initproc) (bootPool initproc fsinit) tr s th :=
    Sys.Reach.mono (N := (sys initproc).restrict fun _ _ _ => True) (fun _ _ _ _ _ h => ⟨trivial, h⟩) rfl rfl rfl run
  obtain ⟨L, inv, vacant, -⟩ := vacant_keeps.reach start ok free
  exact ⟨L, inv, vacant⟩

/-! ## `fork` -/

/-- A step of a thread that runs alone. It sets the context of a new process itself. -/
def soloStep (t : Thread n κ) (a : Act n) (s : St n κ) (r : Res a) (s' : St n κ) : Prop :=
  exec t a s r s' ∨ ∃ p, a = .setContext p ∧ s' = { s with pc := Function.update s.pc p .user }

theorem soloStep.cpuExec (h : soloStep t a s r s') (k : ∀ p, a ≠ .setContext p) : ∃ c, cpuExec c a s r s' := by
  rcases h with ⟨c, -, hx⟩ | ⟨p, rfl, -⟩
  · exact ⟨c, hx⟩
  · exact absurd rfl (k p)

/-- Spinlocks leave the process table alone. -/
theorem Spins.must {α : Type} {p : Code n α} (h : Spins p) :
    p.must (soloStep t) (Stuck (soloStep t)) s fun _ (s' : St n κ) => s'.proc = s.proc := by
  refine heeds.must (I := fun s' : St n κ => s'.proc = s.proc) (fun a s₁ r s₂ spins same moved => ⟨trivial, ?_⟩) h rfl
  have others : ∀ p, a ≠ .setContext p := by
    rintro p rfl
    cases spins
  obtain ⟨c, hx⟩ := moved.cpuExec others
  rw [cpuExec_proc hx (by cases a <;> first | rfl | cases spins)]
  exact same

/-- One action that is not `setContext`. -/
theorem must_step {α : Type} {f : Res a → Code n α} {Q : α → St n κ → Prop} (k : ∀ p, a ≠ .setContext p)
    (rest : ∀ c r s', cpuExec c a s r s' → (f r).must (soloStep t) (Stuck (soloStep t)) s' Q) :
    (req a >>= f).must (soloStep t) (Stuck (soloStep t)) s Q := by
  refine must_act fun r s' moved => ?_
  obtain ⟨c, hx⟩ := moved.cpuExec k
  exact rest c r s' hx

theorem must_spins {α β : Type} {p : Code n α} {f : α → Code n β} {Q : β → St n κ → Prop} (spins : Spins p)
    (rest : ∀ x s', s'.proc = s.proc → (f x).must (soloStep t) (Stuck (soloStep t)) s' Q) :
    (p >>= f).must (soloStep t) (Stuck (soloStep t)) s Q := must_seq spins.must rest

/-- What `allocproc` does to the table: it takes a free slot, or no process is new. -/
def Allocates (s : St n κ) : Option (Fin n) → St n κ → Prop
  | none, s' => ∀ q, (s.proc q).state = .unused → (s'.proc q).state = .unused
  | some np, s' => (s.proc np).state = .unused ∧ ∀ q, q ≠ np → s'.proc q = s.proc q

/-- `freeproc(np); release(&np->lock);` where `np` was free before. -/
theorem undo_must {np : Fin n} {s₀ : St n κ} (others : ∀ q, q ≠ np → s.proc q = s₀.proc q) :
    (do req (.freeproc np); release (.proc np) : Code n Unit).must (soloStep t) (Stuck (soloStep t)) s
      fun _ s' => ∀ q, (s₀.proc q).state = .unused → (s'.proc q).state = .unused := by
  refine must_step nofun fun c _ s₁ hx => must_mono (release_spins _).must fun _ s₂ same q unused => ?_
  obtain rfl : s₁ = s.setProc np Proc.freed := hx
  rw [same]
  by_cases self : q = np
  · subst self
    simp [St.setProc, Proc.freed]
  · simpa [St.setProc, Function.update_of_ne self, others q self] using unused

theorem allocprocFound_must {np : Fin n} (unused : (s.proc np).state = .unused) :
    (allocprocFound np).must (soloStep t) (Stuck (soloStep t)) s (Allocates s) := by
  refine must_step nofun fun c pid s₁ hx => ?_
  obtain ⟨-, rfl⟩ := hx
  generalize claimed : ({ s.setProc np { s.proc np with pid := s.nextpid, state := .used, priority := 5 } with
    nextpid := addInt s.nextpid 1 } : St n κ) = s₁
  have others : ∀ q, q ≠ np → s₁.proc q = s.proc q := by
    intro q other
    rw [← claimed]
    exact Function.update_of_ne other _ _
  have undone : (do req (.freeproc np); release (.proc np); return none : Code n (Option (Fin n))).must (soloStep t)
      (Stuck (soloStep t)) s₁ (Allocates s) :=
    must_seq (p := (do req (.freeproc np); release (.proc np) : Code n Unit)) (f := fun _ => pure none)
      (undo_must others) fun _ s' free => free
  refine must_step (a := .choose) nofun fun c (k : Nat) s₂ hx => ?_
  obtain rfl : s₂ = s₁ := hx
  dsimp only
  split
  · refine must_step (a := .choose) nofun fun c (k : Nat) s₃ hx => ?_
    obtain rfl : s₃ = s₂ := hx
    dsimp only
    split
    · refine must_act (a := Act.setContext np) fun _ s₄ moved => ?_
      refine ⟨unused, fun q other => ?_⟩
      rcases moved with ⟨c, -, impossible⟩ | ⟨p, -, rfl⟩
      · exact False.elim impossible
      · exact others q other
    · exact undone
  · exact undone

theorem allocproc_must : (allocproc : Code n (Option (Fin n))).must (soloStep t) (Stuck (soloStep t)) s (Allocates s) := by
  have each : ∀ (ps : List (Fin n)) (s₁ : St n κ), s₁.proc = s.proc →
      (allocprocFrom ps).must (soloStep t) (Stuck (soloStep t)) s₁ (Allocates s) := by
    intro ps
    induction ps with
    | nil =>
      intro s₁ same q unused
      rw [same]
      exact unused
    | cons p ps ih =>
      intro s₁ same
      refine must_spins (acquire_spins _) fun _ s₂ locked => must_step (a := .read p) nofun fun c (x : Proc n) s₃ hx => ?_
      obtain ⟨rfl, rfl⟩ := hx
      have table : s₃.proc = s.proc := locked.trans same
      split
      · rename_i unused
        refine must_mono (allocprocFound_must unused) fun o s' h => ?_
        cases o with
        | none =>
          intro q free
          exact h q (by rw [table]; exact free)
        | some np =>
          obtain ⟨free, others⟩ := h
          rw [table] at free
          refine ⟨free, fun q other => ?_⟩
          rw [others q other, table]
      · exact must_spins (release_spins _) fun _ s₄ released => ih s₄ (released.trans table)
  exact each _ s rfl

/-- What `fork` by `me` leaves of the slots that were free: a process in one of them is a child of `me`
and has the priority of `me`. -/
def BearsAlike (me : Fin n) (s s' : St n κ) : Prop :=
  ∀ np, (s.proc np).state = .unused → (s'.proc np).state ≠ .unused →
    (s'.proc np).parent = some me ∧ (s'.proc np).priority = (s.proc me).priority

theorem fork_must {dup : Client} (ok : dup.Disciplined .none) (used : (s.proc me).state ≠ .unused) :
    (fork me dup).must (soloStep t) (Stuck (soloStep t)) s fun _ s' => BearsAlike me s s' := by
  refine must_seq allocproc_must fun o s₁ allocates => ?_
  cases o with
  | none => exact fun np unused new => absurd (allocates np unused) new
  | some np =>
    obtain ⟨unused, others⟩ := allocates
    have apart : me ≠ np := by
      rintro rfl
      exact used unused
    refine must_step (a := .choose) nofun fun c (k : Nat) s₂ hx => ?_
    obtain rfl : s₂ = s₁ := hx
    dsimp only
    split
    · refine must_spins (client_spins _ ok) fun _ s₃ same => must_step (a := .read me) nofun fun c (p : Proc n) s₄ hx => ?_
      obtain ⟨rfl, rfl⟩ := hx
      have parent : s₄.proc me = s.proc me := by
        rw [same, others me apart]
      refine must_step (a := .setPriority np _) nofun fun c _ s₅ hx => ?_
      obtain rfl : s₅ = s₄.setProc np { s₄.proc np with priority := (s₄.proc me).priority } := hx
      refine must_step (a := .read np) nofun fun c (x : Proc n) s₆ hx => ?_
      obtain ⟨-, rfl⟩ := hx
      refine must_spins (release_spins _) fun _ s₇ released => must_spins (acquire_spins _) fun _ s₈ acquired => ?_
      refine must_step (a := .setParent np _) nofun fun c _ s₉ hx => ?_
      obtain rfl : s₉ = s₈.setProc np { s₈.proc np with parent := some me } := hx
      refine must_spins (release_spins _) fun _ t₁ released' => must_spins (acquire_spins _) fun _ t₂ acquired' => ?_
      refine must_step (a := .setRunnable np) nofun fun c _ t₃ hx => ?_
      obtain rfl : t₃ = t₂.setProc np { t₂.proc np with state := .runnable } := hx
      refine must_spins (release_spins _) fun _ t₄ released'' => ?_
      refine must_step (a := .forked me _) (f := Prog.ret) nofun fun c _ t₅ hx q free new => ?_
      obtain rfl : t₅ = t₄ := hx
      by_cases self : q = np
      · subst self
        simp only [released'', acquired', released', acquired, released, St.setProc, Function.update_self, parent,
          and_self]
      · have old : t₅.proc q = s.proc q := by
          simp only [released'', acquired', released', acquired, released, same, St.setProc,
            Function.update_of_ne self, others q self]
        rw [old] at new
        exact absurd free new
    · exact must_mono (undo_must others) fun _ s' free q unused new => absurd (free q unused) new

/-! ## The system call -/

/-- The thread waits for a `p->lock` that `sys_setpriority` needs. -/
def WaitsForSlot (a : Act n) (s : St n κ) : Prop := ∃ pid priority p, a = .priorityOne pid priority p ∧ s.lock (.proc p) ≠ none

theorem setpriorityFrom_must (hc : s.running c = t) (pid priority : Int) (ps : List (Fin n)) :
    (setpriorityFrom pid priority ps).must (exec t) WaitsForSlot s fun r s' =>
      (r = 0 ∧ ∃ p, (s.proc p).pid = pid ∧ s' = s.setProc p { s.proc p with priority := priority }) ∨
        (r = -1 ∧ (∀ p ∈ ps, (s.proc p).pid ≠ pid) ∧ s' = s) := by
  induction ps with
  | nil => exact Or.inr ⟨rfl, nofun, rfl⟩
  | cons p ps ih =>
    by_cases free : s.lock (.proc p) = none
    · refine Or.inr ⟨⟨_, _, c, hc, free, rfl, rfl⟩, ?_⟩
      rintro r s' ⟨d, hd, -, rfl, rfl⟩
      by_cases hit : (s.proc p).pid = pid
      · rw [decide_eq_true hit, if_pos hit]
        exact Or.inl ⟨rfl, p, hit, rfl⟩
      · rw [decide_eq_false hit, if_neg hit]
        refine Prog.must_mono ih fun r s' result => ?_
        rcases result with found | ⟨rfl, others, rfl⟩
        · exact Or.inl found
        · exact Or.inr ⟨rfl, List.forall_mem_cons.mpr ⟨hit, others⟩, rfl⟩
    · exact Or.inl ⟨pid, priority, p, rfl, free⟩

/-- What `sys_setpriority(pid, priority)` does to a process table: the priority is valid, a process
has that pid, and its priority is changed and nothing else; or the priority is not valid or no process
has that pid, and nothing changes. -/
def Prioritizes (pid priority : Int) (s : St n κ) (r : Int) (s' : St n κ) : Prop :=
  (r = 0 ∧ InRange priority ∧ ∃ p, (s.proc p).state ≠ .unused ∧ (s.proc p).pid = pid ∧
    s' = s.setProc p { s.proc p with priority := priority }) ∨
  (r = -1 ∧ (InRange priority → ∀ p, (s.proc p).state ≠ .unused → (s.proc p).pid ≠ pid) ∧ s' = s)

theorem sysSetpriority_must (hc : s.running c = t) (vacant : Vacant s) {pid priority : Int} (named : pid ≠ 0) :
    (sysSetpriority pid priority).must (exec t) WaitsForSlot s (Prioritizes pid priority s) := by
  rw [sysSetpriority]
  split
  · rename_i invalid
    refine Or.inr ⟨rfl, fun valid => ?_, rfl⟩
    rw [InRange] at valid
    omega
  · rename_i valid
    have range : InRange priority := by
      rw [InRange]
      omega
    refine Prog.must_mono (setpriorityFrom_must hc pid priority _) fun r s' result => ?_
    rcases result with ⟨rfl, p, hit, rfl⟩ | ⟨rfl, others, rfl⟩
    · refine Or.inl ⟨rfl, range, p, fun unused => ?_, hit, rfl⟩
      exact named (hit.symm.trans (vacant p unused))
    · exact Or.inr ⟨rfl, fun _ p _ => others p (List.mem_finRange p), rfl⟩

end Xv6.Process
