import Xv6.Interleave.Must
import Xv6.Process.Safe

/-!
# kill

A slot of the process table that is `UNUSED` has pid 0. `kill(0)` therefore finds one, marks it
and reports success; `allocproc` does not clear the mark, so the next process in that slot is
killed. When every `kill` names another pid, only processes that exist are marked, and a process
is marked only by a `kill` that names it or by its own fault.
-/

namespace Xv6.Process

open Interleave

variable {n : Nat} {κ : Type} [DecidableEq κ] {initproc : Fin n} {fsinit : Client}
variable {s s' : St n κ} {L L' : Thread n κ → Gh n κ} {i t : Thread n κ} {c : κ} {a : Act n}
variable {r : Res a} {tr : List (Ev n κ)} {p q : Fin n} {th : Thread n κ → Code n Unit}

def Ev.creates (p : Fin n) : Ev n κ → Bool
  | .alloc q _ => q = p
  | _ => false

/-- What a run has recorded since `allocproc` last took slot `p`. -/
def since (p : Fin n) (tr : List (Ev n κ)) : List (Ev n κ) :=
  tr.foldl (fun l e => if e.creates p then [] else l ++ [e]) []

omit [DecidableEq κ] in
theorem since_append {o : List (Ev n κ)} (h : ∀ e ∈ o, e.creates p = false) :
    since p (tr ++ o) = since p tr ++ o := by
  induction o using List.reverseRecOn with
  | nil => simp
  | append_singleton o e ih =>
    have last : e.creates p = false := h e (by simp)
    rw [← List.append_assoc, since, List.foldl_append, List.foldl_cons, List.foldl_nil, ← since,
      ih fun x hx => h x (List.mem_append_left _ hx), last]
    simp

omit [DecidableEq κ] in
theorem obs_creates (h : a ≠ .claim p) : ∀ e ∈ obs i a s, e.creates p = false := by
  intro e he
  cases a with
  | claim q =>
    obtain rfl : e = .alloc q s.nextpid := by simpa [obs] using he
    have other : q ≠ p := fun e => h (congrArg _ e)
    simpa [Ev.creates] using other
  | setState q st | freeproc q | killOne pid q =>
    simp only [obs] at he
    split at he
    · obtain rfl := List.mem_singleton.mp he
      rfl
    · cases he
  | waited | forked | setKilled =>
    obtain rfl := List.mem_singleton.mp he
    rfl
  | _ => cases he

/-- No `kill` names pid 0. -/
def NamesPid (_ : Thread n κ) (a : Act n) (_ : St n κ) : Prop := ∀ pid p, a = .killOne pid p → pid ≠ 0

/-- `free`: an unused slot has pid 0 and no mark. `young`: who makes a process holds its lock, and
it has no mark. `named`: a marked process was named by a `kill`, or it faulted. -/
structure Marks (tr : List (Ev n κ)) (s : St n κ) (L : Thread n κ → Gh n κ) : Prop where
  free : ∀ p, (s.proc p).state = .unused → (s.proc p).pid = 0 ∧ (s.proc p).killed = false
  busy : ∀ t p b, (L t).child = some (p, b) → ∃ q, t = .proc q ∧ Live (s.proc q).state
  young : ∀ t p, (L t).child = some (p, false) → .proc p ∈ (L t).held ∧ (s.proc p).killed = false
  named : ∀ p, (s.proc p).killed = true → .kill (s.proc p).pid p ∈ since p tr ∨ .fault p ∈ since p tr

omit [DecidableEq κ] in
/-- A live process stays alive until it exits. -/
theorem Change.live {y : Proc n} (h : Change s a q y) (live : Live (s.proc q).state)
    (stays : a ≠ .setState q .zombie) : Live y.state := by
  cases h with
  | keeps _ _ _ alive => exact alive live
  | exits act => exact absurd act stays
  | killed _ becomes =>
    subst becomes
    simp only [Proc.kill]
    split
    · exact Or.inr (Or.inl rfl)
    · exact live
  | faults _ _ becomes =>
    subst becomes
    exact live
  | claimed _ unused => exact absurd live (not_live (Or.inl unused))
  | freed _ dead => exact absurd live (not_live (Or.inr dead))

/-- Only `claim` makes a new child. -/
theorem next_child_cases (hx : cpuExec c a s r s') {l : Gh n κ} {b : Bool}
    (h : (next initproc a l r).child = some (p, b)) : l.child = some (p, b) ∨ a = .claim p ∧ b = false := by
  cases a with
  | setContext => exact hx.elim
  | claim q =>
    obtain ⟨rfl, rfl⟩ := Prod.mk.inj (Option.some.inj h)
    exact Or.inr ⟨rfl, rfl⟩
  | setRunnable | freeproc => cases h
  | _ =>
    rw [next_child _ _ rfl] at h
    exact Or.inl h

omit [DecidableEq κ] in
/-- A thread that makes a process and holds its lock is executed by a CPU. -/
theorem Marks.not_free (M : Marks tr s L) (h : Inv initproc tr s L) (child : (L t).child = some (p, false)) :
    s.lock (.proc p) ≠ none := by
  intro free
  obtain ⟨m, rfl, live⟩ := M.busy t p false child
  have mem := (M.young _ p child).1
  by_cases running : ∃ e, s.running e = .proc m
  · obtain ⟨e, he⟩ := running
    exact h.locks.none free e (he.symm ▸ mem)
  · have ready := h.states.parked m (fun e he => running ⟨e, he⟩) live
    rw [ready.held, List.mem_singleton] at mem
    obtain rfl := Lock.proc.inj mem
    exact not_live (Or.inr (Or.inl (h.states.child _ p false child).1)) live

section Step

variable (M : Marks tr s L) (h : Inv initproc tr s L) (ok : pre initproc a (L i)) (hc : s.running c = i)
variable (hx : cpuExec c a s r s')

include M h ok hc hx

theorem Marks.free_step (names : NamesPid i a s) :
    (s'.proc q).state = .unused → (s'.proc q).pid = 0 ∧ (s'.proc q).killed = false := by
  intro unused
  cases h.change ok hc hx q with
  | keeps pid killed same _ =>
    rw [pid, killed]
    exact M.free q (same.mp unused)
  | exits _ _ becomes =>
    rw [becomes] at unused
    cases unused
  | killed act becomes =>
    rw [becomes] at unused
    have before : (s.proc q).state = .unused := by
      simp only [Proc.kill] at unused
      split at unused
      · cases unused
      · exact unused
    exact absurd (M.free q before).1 (names _ _ act)
  | faults _ running becomes =>
    rw [becomes] at unused
    exact absurd (running.symm.trans unused) (by decide)
  | claimed _ _ becomes =>
    rw [becomes] at unused
    cases unused
  | freed _ _ becomes =>
    rw [becomes]
    exact ⟨rfl, rfl⟩

theorem Marks.busy_step {b : Bool} (child : (Function.update L i (next initproc a (L i) r) t).child = some (p, b)) :
    ∃ q, t = .proc q ∧ Live (s'.proc q).state := by
  have old : (L t).child = some (p, b) ∨ t = i ∧ a = .claim p := by
    by_cases self : t = i
    · subst self
      rw [Function.update_self] at child
      rcases next_child_cases hx child with same | ⟨new, -⟩
      · exact Or.inl same
      · exact Or.inr ⟨rfl, new⟩
    · rw [Function.update_of_ne self] at child
      exact Or.inl child
  rcases old with old | ⟨rfl, rfl⟩
  · obtain ⟨q, rfl, live⟩ := M.busy t p b old
    refine ⟨q, rfl, (h.change ok hc hx q).live live ?_⟩
    rintro rfl
    obtain ⟨me, -, -, choice⟩ := ok
    obtain rfl : i = .proc q := (h.places.me i).symm.trans me
    rcases choice with h | ⟨h, -⟩ | ⟨-, may⟩
    · cases h
    · cases h
    · exact absurd (old.symm.trans may.2.2.1) nofun
  · have change := h.change ok hc hx
    obtain ⟨⟨q, me⟩, -, -, own, -⟩ := ok
    obtain rfl : t = .proc q := (h.places.me t).symm.trans me
    refine ⟨q, rfl, (change q).live ?_ nofun⟩
    rcases h.states.executes c q hc with ⟨-, run⟩ | ⟨st, set, -⟩
    · exact Or.inr (Or.inr run)
    · exact absurd (own.symm.trans set) nofun

theorem Marks.young_self (child : (next initproc a (L i) r).child = some (p, false)) :
    .proc p ∈ (next initproc a (L i) r).held := by
  rcases next_child_cases hx child with old | ⟨rfl, -⟩
  · have mem := (M.young i p old).1
    cases a with
    | lock lk => exact List.mem_cons_of_mem _ mem
    | unlock lk =>
      obtain ⟨-, -, -, releases⟩ := ok
      have other : Lock.proc p ≠ lk := by
        rintro rfl
        by_cases self : (L i).me = .proc p
        · obtain rfl : i = .proc p := (h.places.me i).symm.trans self
          exact (h.states.executes c p hc).not_embryo.1 (h.states.child _ p false old).1
        · exact releases.2 self old
      exact (List.mem_erase_of_ne other).mpr mem
    | _ =>
      rw [next_held _ _ rfl]
      exact mem
  · exact ok.2.1

theorem Marks.young_held (child : (Function.update L i (next initproc a (L i) r) t).child = some (p, false)) :
    .proc p ∈ (Function.update L i (next initproc a (L i) r) t).held := by
  by_cases self : t = i
  · subst self
    rw [Function.update_self] at child ⊢
    exact M.young_self h ok hc hx child
  · rw [Function.update_of_ne self] at child ⊢
    exact (M.young t p child).1

theorem Marks.young_killed (child : (Function.update L i (next initproc a (L i) r) t).child = some (p, false)) :
    (s'.proc p).killed = false := by
  have old : (L t).child = some (p, false) ∨ a = .claim p := by
    by_cases self : t = i
    · subst self
      rw [Function.update_self] at child
      exact (next_child_cases hx child).imp_right And.left
    · rw [Function.update_of_ne self] at child
      exact Or.inl child
  have before : (s.proc p).killed = false := by
    rcases old with old | rfl
    · exact (M.young t p old).2
    · obtain ⟨-, -, -, -, x, seen, rfl, unused⟩ := ok
      exact (M.free _ ((h.states.sees hc seen).2.2.1.trans unused)).2
  cases h.change ok hc hx p with
  | keeps _ killed => exact killed.trans before
  | exits _ _ becomes =>
    rw [becomes]
    exact before
  | killed act becomes =>
    subst act
    rcases old with old | claims
    · exact absurd hx.1 (M.not_free h old)
    · cases claims
  | faults act running =>
    rcases old with old | claims
    · exact absurd ((h.states.child t p false old).1.symm.trans running) (by decide)
    · exact absurd (act.symm.trans claims) nofun
  | claimed _ _ becomes =>
    rw [becomes]
    exact before
  | freed _ _ becomes =>
    rw [becomes]
    rfl

theorem Marks.named_step (marked : (s'.proc q).killed = true) :
    .kill (s'.proc q).pid q ∈ since q (tr ++ obs i a s) ∨ .fault q ∈ since q (tr ++ obs i a s) := by
  have more : (s.proc q).killed = true → (s'.proc q).pid = (s.proc q).pid →
      .kill (s'.proc q).pid q ∈ since q (tr ++ obs i a s) ∨ .fault q ∈ since q (tr ++ obs i a s) := by
    intro old pid
    have unclaimed : a ≠ .claim q := by
      rintro rfl
      obtain ⟨-, -, -, -, x, seen, rfl, unused⟩ := ok
      rw [(M.free _ ((h.states.sees hc seen).2.2.1.trans unused)).2] at old
      cases old
    rw [since_append (obs_creates unclaimed), pid]
    exact (M.named q old).imp (List.mem_append_left _) (List.mem_append_left _)
  cases h.change ok hc hx q with
  | keeps pid killed => exact more (killed.symm.trans marked) pid
  | exits _ _ becomes =>
    rw [becomes] at marked
    exact more marked (by rw [becomes])
  | killed act becomes =>
    subst act
    rw [since_append (obs_creates (by simp)), becomes]
    left
    exact List.mem_append_right _ (by simp [obs, Proc.kill])
  | faults act _ becomes =>
    subst act
    rw [since_append (obs_creates (by simp))]
    right
    exact List.mem_append_right _ (by simp [obs])
  | claimed _ unused becomes =>
    rw [becomes] at marked
    exact absurd (marked.symm.trans (M.free q unused).2) (by simp)
  | freed _ _ becomes =>
    rw [becomes] at marked
    cases marked

end Step

theorem Marks.env (M : Marks tr s L) (moves : EnvMoves s L s' L') : Marks tr s' L' := by
  rcases moves with ⟨c, x, rfl, rfl⟩ | ⟨t, p, child, rfl, rfl⟩
  · exact ⟨M.free, M.busy, M.young, M.named⟩
  · refine ⟨M.free, fun u q b hu => ?_, fun u q hu => ?_, M.named⟩
    · rcases contexts_child hu with ⟨rfl, rfl, -⟩ | ⟨-, -, old⟩
      · exact M.busy _ q false child
      · exact M.busy u q b old
    · rcases contexts_child hu with ⟨-, -, ready⟩ | ⟨-, new, old⟩
      · cases ready
      · rw [contexts_field Gh.held rfl new]
        exact M.young u q old

theorem marks_keeps : Keeps initproc (NamesPid : Thread n κ → Act n → St n κ → Prop) Marks where
  step h M ok names hc hx :=
    { free := fun _ => M.free_step h ok hc hx names
      busy := fun _ _ _ => M.busy_step h ok hc hx
      young := fun _ _ child => ⟨M.young_held h ok hc hx child, M.young_killed h ok hc hx child⟩
      named := fun _ => M.named_step h ok hc hx }
  env _ M moves := M.env moves

omit [DecidableEq κ] in
theorem boot_marks (initproc : Fin n) : Marks [] (boot initproc : St n κ) (bootGh initproc) := by
  have childless : ∀ t p b, (bootGh initproc t : Gh n κ).child ≠ some (p, b) := by
    intro t p b h
    rw [(bootGh_plain initproc t).1] at h
    cases h
  refine ⟨fun p unused => ?_, fun t p b h => absurd h (childless t p b), fun t p h => absurd h (childless t p false),
    fun p marked => ?_⟩
  · rcases boot_cases κ initproc p with ⟨-, h, -⟩ | ⟨-, h, -⟩ <;> rw [h] at unused ⊢
    · cases unused
    · exact ⟨rfl, rfl⟩
  · rcases boot_cases κ initproc p with ⟨-, h, -⟩ | ⟨-, h, -⟩ <;> rw [h] at marked <;> cases marked

/-! ## The system call -/

/-- The thread waits for a `p->lock` that `kill` needs. -/
def WaitsForLock (a : Act n) (s : St n κ) : Prop := ∃ pid p, a = .killOne pid p ∧ s.lock (.proc p) ≠ none

theorem killFrom_must (hc : s.running c = t) (pid : Int) (ps : List (Fin n)) :
    (killFrom pid ps).must (exec t) WaitsForLock s fun r s' =>
      (r = 0 ∧ ∃ p, (s.proc p).pid = pid ∧ s' = s.setProc p (s.proc p).kill) ∨
        (r = -1 ∧ (∀ p ∈ ps, (s.proc p).pid ≠ pid) ∧ s' = s) := by
  induction ps with
  | nil => exact Or.inr ⟨rfl, nofun, rfl⟩
  | cons p ps ih =>
    by_cases free : s.lock (.proc p) = none
    · refine Or.inr ⟨⟨_, _, c, hc, free, rfl, rfl⟩, ?_⟩
      rintro r s' ⟨d, hd, -, rfl, rfl⟩
      by_cases hit : (s.proc p).pid = pid
      · rw [decide_eq_true hit, if_pos hit]
        exact Or.inl ⟨rfl, p, hit, rfl⟩
      · rw [decide_eq_false hit, if_neg hit]
        refine Prog.must_mono ih fun r s' result => ?_
        rcases result with found | ⟨rfl, others, rfl⟩
        · exact Or.inl found
        · exact Or.inr ⟨rfl, List.forall_mem_cons.mpr ⟨hit, others⟩, rfl⟩
    · exact Or.inl ⟨pid, p, rfl, free⟩

/-- What `kill(pid)` does to a process table: it marks a process that exists and has that pid, and
wakes it up if it sleeps; or there is none, and nothing changes. -/
def KillsLive (pid : Int) (s : St n κ) (r : Int) (s' : St n κ) : Prop :=
  (r = 0 ∧ ∃ p, (s.proc p).state ≠ .unused ∧ (s.proc p).pid = pid ∧ s' = s.setProc p (s.proc p).kill) ∨
    (r = -1 ∧ (∀ p, (s.proc p).state ≠ .unused → (s.proc p).pid ≠ pid) ∧ s' = s)

/-- In runs in which no `kill` names pid 0: `kill(pid)` with another pid, executed in any
configuration, returns 0 exactly when a process has that pid, and marks only that one; a process
that `allocproc` is about to return has no mark; a marked process was named by a `kill` since it
was created, or it faulted. -/
theorem kill_marks_live (ok : fsinit.Disciplined .sleep)
    (run : ((sys initproc).restrict NamesPid).Reach (boot initproc) (bootPool initproc fsinit) tr s th) :
    (∀ c pid, pid ≠ 0 → (kill pid).must (exec (s.running c)) WaitsForLock s (KillsLive pid s)) ∧
      (∀ c p k, th (s.running c) = .act (.setContext p) k → (s.proc p).killed = false) ∧
      ∀ p, (s.proc p).killed = true → .kill (s.proc p).pid p ∈ since p tr ∨ .fault p ∈ since p tr := by
  obtain ⟨L, h, M, verified⟩ := marks_keeps.reach (boot_marks initproc) ok run
  refine ⟨fun c pid named => ?_, fun c p k code => ?_, M.named⟩
  · refine Prog.must_mono (killFrom_must rfl pid _) fun r s' result => ?_
    rcases result with ⟨rfl, p, hit, rfl⟩ | ⟨rfl, others, rfl⟩
    · refine Or.inl ⟨rfl, p, fun unused => ?_, hit, rfl⟩
      exact named (hit.symm.trans (M.free p unused).1)
    · exact Or.inr ⟨rfl, fun p _ => others p (List.mem_finRange p), rfl⟩
  · obtain ⟨child, -⟩ := Verified.next_ok verified code
    exact (M.young _ p child).2

/-- init kills itself. -/
def killInit : List Cmd :=
  startInit ++ .trap (.syscall (.kill 1) (pure ())) :: List.replicate 4 (.step 0)

theorem kill_marks_live_init :
    ∃ (tr : List (Ev 2 Unit)) (s : St 2 Unit) (th : Thread 2 Unit → Code 2 Unit),
      ((sys 0).restrict NamesPid).Reach (boot 0) (bootPool 0 (pure ())) tr s th ∧
        (s.proc 0).killed = true ∧ (.kill 1 0 ∈ since 0 tr ∨ .fault 0 ∈ since 0 tr) := by
  obtain ⟨tr, s, th, run, h⟩ := (mover (0 : Fin 2)
      fun a _ => match a with | .killOne pid _ => decide (pid ≠ 0) | _ => true).exists_reach killInit (boot 0)
    (bootPool 0 (pure ())) (fun _ s _ => (s.proc 0).killed && decide ((s.proc 0).pid = 1))
    (List.forall_mem_append.mpr ⟨startInit_ok, List.forall_mem_cons.mpr
      ⟨⟨trivial, disciplined_nothing⟩, steps_ok 4 0⟩⟩) (by decide +kernel)
  simp only [Bool.and_eq_true, decide_eq_true_eq] at h
  have named : ((sys 0).restrict NamesPid).Reach (boot 0) (bootPool 0 (pure ())) tr s th := by
    refine run.weaken fun i a s passed => ?_
    rintro pid p rfl
    exact of_decide_eq_true passed
  have marked := (kill_marks_live disciplined_nothing named).2.2 0 h.1
  rw [h.2] at marked
  exact ⟨tr, s, th, named, h.1, marked⟩

/-- init calls `kill(0)`, and forks. -/
def killNobody : List Cmd :=
  startInit ++ .trap (.syscall (.kill 0) (pure ())) :: List.replicate 6 (.step 0) ++
    .finish :: List.replicate 4 (.step 0) ++ forkChild

theorem killNobody_ok : ∀ c ∈ killNobody, c.Ok := by
  simp only [killNobody, List.append_assoc, List.cons_append, List.forall_mem_cons, List.forall_mem_append]
  exact ⟨startInit_ok, ⟨trivial, disciplined_nothing⟩, steps_ok 6 0, trivial, steps_ok 4 0, forkChild_ok⟩

/-- While init is the only process, `kill(0)` returns 0 and marks an unused slot; the next process
that `fork` makes is marked, and no `kill` has named it. -/
theorem kill_zero_marks_unused :
    (∃ (tr : List (Ev 2 Unit)) (s : St 2 Unit) (th : Thread 2 Unit → Code 2 Unit),
      (sys 0).Reach (boot 0) (bootPool 0 (pure ())) tr s th ∧
        (∀ p, (s.proc p).state ≠ .unused → (s.proc p).pid ≠ 0) ∧
        (kill 0).must (exec (s.running ())) (fun _ _ => False) s fun r s' =>
          r = 0 ∧ (s'.proc 1).state = .unused ∧ (s'.proc 1).killed = true) ∧
      ∃ (tr : List (Ev 2 Unit)) (s : St 2 Unit) (th : Thread 2 Unit → Code 2 Unit),
        (sys 0).Reach (boot 0) (bootPool 0 (pure ())) tr s th ∧
          tr = [.kill 0 1, .alloc 1 2, .forked 0 2] ∧
          (s.proc 1).state = .runnable ∧ (s.proc 1).pid = 2 ∧ (s.proc 1).killed = true := by
  constructor
  · obtain ⟨tr, s, th, run, h⟩ := (mover (0 : Fin 2) fun _ _ => true).exists_reach startInit (boot 0)
      (bootPool 0 (pure ())) (fun _ s _ => decide (s.lock (.proc 0) = none) && decide (s.lock (.proc 1) = none) &&
        decide ((s.proc 0).pid = 1) && decide ((s.proc 1).pid = 0) && decide ((s.proc 1).state = .unused))
      startInit_ok (by decide +kernel)
    simp only [Bool.and_eq_true, decide_eq_true_eq] at h
    obtain ⟨⟨⟨⟨free₀, free₁⟩, pid₀⟩, pid₁⟩, unused⟩ := h
    refine ⟨tr, s, th, run.of_restrict, fun p live => ?_, ?_⟩
    · match p with
      | 0 =>
        rw [pid₀]
        decide
      | 1 => exact absurd unused live
    · rw [kill, show List.finRange 2 = [0, 1] from rfl]
      refine Or.inr ⟨⟨_, _, (), rfl, free₀, rfl, rfl⟩, ?_⟩
      rintro r s' ⟨d, -, -, rfl, rfl⟩
      rw [decide_eq_false (by rw [pid₀]; decide), if_neg (by rw [pid₀]; decide)]
      refine Or.inr ⟨⟨_, _, (), rfl, free₁, rfl, rfl⟩, ?_⟩
      rintro r s' ⟨d, -, -, rfl, rfl⟩
      rw [decide_eq_true pid₁, if_pos pid₁]
      refine ⟨rfl, ?_, ?_⟩ <;> simp [St.setProc, Proc.kill, unused]
  · obtain ⟨tr, s, th, run, h⟩ := (mover (0 : Fin 2) fun _ _ => true).exists_reach killNobody (boot 0)
      (bootPool 0 (pure ())) (fun tr s _ => decide (tr = [.kill 0 1, .alloc 1 2, .forked 0 2]) &&
        decide ((s.proc 1).state = .runnable) && decide ((s.proc 1).pid = 2) && (s.proc 1).killed)
      killNobody_ok (by decide +kernel)
    simp only [Bool.and_eq_true, decide_eq_true_eq] at h
    obtain ⟨⟨⟨record, state⟩, pid⟩, killed⟩ := h
    exact ⟨tr, s, th, run.of_restrict, record, state, pid, killed⟩

end Xv6.Process
