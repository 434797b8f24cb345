import Xv6.Interleave.Rules
import Xv6.Interleave.Watch
import Xv6.Process.Pids
import Xv6.Process.Plain

/-!
# The parent that `sys_getprocinfo` reports

`sys_getprocinfo` follows `p->parent` without `wait_lock`. Between the two reads the parent may exit
and be reaped, and its slot may be free or belong to another process when its pid is read. When the
process is still the caller's parent at that moment, the report is right.
-/

namespace Xv6.Process

open Interleave Prog

variable {n : Nat} {κ : Type} {initproc me : Fin n} {fsinit : Client}

/-! ## Calls in the record of a run -/

/-- What is recorded of a run: who did what in which state. -/
abbrev Moment (n : Nat) (κ : Type) : Type := Entry (Thread n κ) (Act n) (St n κ)

/-- Process `me` begins `sys_getprocinfo`. -/
def begins (me : Fin n) (e : Moment n κ) : Bool :=
  match e.thread, e.act with
  | .proc q, .info p .pid => decide (q = me) && decide (p = me)
  | _, _ => false

/-- What happened since `me` last began `sys_getprocinfo`. -/
def lastCall (me : Fin n) (w : List (Moment n κ)) : Option (List (Moment n κ)) :=
  w.foldl (fun o e => if begins me e then some [] else o.map (· ++ [e])) none

/-- `P` held at some moment since `me` last began `sys_getprocinfo`. -/
def During (me : Fin n) (w : List (Moment n κ)) (P : St n κ → Prop) : Prop :=
  ∃ call, lastCall me w = some call ∧ ∃ e ∈ call, P e.state

section Record

variable {w : List (Moment n κ)} {e : Moment n κ} {P Q : St n κ → Prop}

theorem lastCall_snoc (me : Fin n) (w : List (Moment n κ)) (e : Moment n κ) :
    lastCall me (w ++ [e]) = if begins me e then some [] else (lastCall me w).map (· ++ [e]) := by
  simp [lastCall]

theorem During.append (h : During me w P) (old : begins me e = false) : During me (w ++ [e]) P := by
  obtain ⟨call, last, x, mem, holds⟩ := h
  refine ⟨call ++ [e], ?_, x, List.mem_append_left _ mem, holds⟩
  rw [lastCall_snoc, old, last]
  rfl

/-- `P` holds now. -/
theorem During.now (busy : (lastCall me w).isSome) (old : begins me e = false) (holds : P e.state) :
    During me (w ++ [e]) P := by
  obtain ⟨call, last⟩ := Option.isSome_iff_exists.mp busy
  refine ⟨call ++ [e], ?_, e, by simp, holds⟩
  rw [lastCall_snoc, old, last]
  rfl

theorem During.mono (h : During me w P) (weaker : ∀ s, P s → Q s) : During me w Q := by
  obtain ⟨call, last, x, mem, holds⟩ := h
  exact ⟨call, last, x, mem, weaker _ holds⟩

end Record

/-! ## What a call has found -/

/-- `busy`: the process has begun `sys_getprocinfo`; `found` are the pids it may report. -/
structure Asks (n : Nat) (κ : Type) where
  me : Thread n κ
  busy : Prop
  found : Set Int

def Asks.next : (a : Act n) → Asks n κ → Res a → Asks n κ
  | .info _ .pid, l, _ => { l with busy := True, found := ∅ }
  | .info _ .parent, l, none => { l with found := insert 0 l.found }
  | .info _ (.ppid _), l, pid => { l with found := insert pid l.found }
  | _, l, _ => l

/-- What a call tells it has found. -/
def Asks.pre : Act n → Asks n κ → Prop
  | .info p .pid, l => l.me = .proc p
  | .info p .parent, l | .info p (.ppid _), l => l.me = .proc p ∧ l.busy
  | .info p (.told _ ppid _), l => l.me = .proc p ∧ ppid ∈ l.found
  | _, _ => True

def Asks.post (a : Act n) (l : Asks n κ) (r : Res a) (l' : Asks n κ) : Prop := l' = l.next a r

/-- Actions that are not part of `sys_getprocinfo`. -/
def Silent (a : Act n) : Prop := ∀ p i, a ≠ .info p i

theorem plain_silent : ∀ a : Act n, a.plain = true → Silent a := by
  rintro _ plain p i rfl
  cases plain

section Verify

variable {α β : Type} {l : Asks n κ} {Q : α → Asks n κ → Prop}

/-- Code without `sys_getprocinfo` finds nothing. -/
theorem silent_wp {p : Code n α} (h : p.heeds Silent fun _ _ => True) :
    p.wp Asks.pre Asks.post l (fun _ m => m = l) := by
  refine heeds.wp (fun a silent => ?_) (fun a r m silent moved => ⟨trivial, ?_⟩) h
  · cases a with
    | info p i => exact absurd rfl (silent p i)
    | _ => trivial
  · cases a with
    | info p i => exact absurd rfl (silent p i)
    | _ => exact moved

theorem silent_then {p : Code n β} {f : β → Code n α} (h : Plain p)
    (rest : ∀ x, (f x).wp Asks.pre Asks.post l Q) : (p >>= f).wp Asks.pre Asks.post l Q := by
  refine wp_seq (silent_wp (h.heeds plain_silent)) ?_
  rintro x m rfl
  exact rest x

/-- One step of `sys_getprocinfo`, and the rest. -/
theorem wp_asks {i : Info n} {f : i.Ans → Code n α} (ok : Asks.pre (.info me i) l)
    (rest : ∀ r, (f r).wp Asks.pre Asks.post (l.next (.info me i) r) Q) :
    (req (.info me i) >>= f).wp Asks.pre Asks.post l Q := by
  refine ⟨ok, ?_⟩
  rintro r _ rfl
  exact rest r

/-- The pid that is returned has been found. -/
theorem parentPid_finds (self : l.me = .proc me) (busy : l.busy) :
    (parentPid me).wp Asks.pre Asks.post l (fun ppid m => m.me = .proc me ∧ ppid ∈ m.found) := by
  refine wp_asks (i := .parent) ⟨self, busy⟩ fun q => ?_
  cases q with
  | none => exact ⟨self, Set.mem_insert _ _⟩
  | some _ =>
    refine wp_asks (i := .parent) ⟨self, busy⟩ fun q => ?_
    cases q with
    | none => exact ⟨trivial, nofun⟩
    | some q => exact wp_asks (i := .ppid q) (f := Prog.ret) ⟨self, busy⟩ fun pid => ⟨self, Set.mem_insert _ _⟩

theorem sysGetprocinfo_finds (self : l.me = .proc me) :
    (sysGetprocinfo me).wp Asks.pre Asks.post l (fun _ _ => True) := by
  refine wp_asks (i := .pid) self fun pid => ?_
  refine wp_seq (parentPid_finds (l := { l with busy := True, found := ∅ }) self trivial) fun ppid m found => ?_
  refine silent_then (plain_last rfl) fun (p : Proc n) => ?_
  refine silent_then (p := succeeds) (plain_req (a := .choose) rfl fun _ => plain_pure _) fun copied => ?_
  cases copied with
  | true => exact ⟨found, fun _ _ _ => trivial⟩
  | false => trivial

theorem usertrap_finds (self : l.me = .proc me) (trap : Trap) :
    (usertrap initproc me trap).wp Asks.pre Asks.post l (fun _ _ => True) := by
  by_cases asks : ∃ close, trap = .syscall .getprocinfo close
  · obtain ⟨close, rfl⟩ := asks
    refine silent_then (plain_last rfl) fun _ => silent_then (plain_last rfl) fun (p : Proc n) => ?_
    split
    · exact wp_mono (silent_wp ((exit_plain close _).heeds plain_silent)) fun _ _ _ => trivial
    · refine silent_then (plain_last rfl) fun _ => wp_seq (sysGetprocinfo_finds self) fun _ m _ => ?_
      exact wp_mono (silent_wp ((plain_last rfl).heeds plain_silent)) fun _ _ _ => trivial
  · refine wp_mono (silent_wp (usertrap_heeds plain_silent fun call close is => ?_)) fun _ _ _ => trivial
    refine syscall_heeds plain_silent (fun dup _ => fork_heeds plain_silent (fun _ _ _ => nofun) dup)
      (fun pid priority _ => sysSetpriority_heeds fun _ _ _ => nofun) fun informs => ?_
    exact absurd ⟨close, informs ▸ is⟩ asks

end Verify

variable [DecidableEq κ] {cond : Thread n κ → Act n → St n κ → Prop} {P : Fin n → Int → St n κ → Prop}

/-- What a record says about its reports: `P me ppid` held at some moment of the call. -/
def Backed (P : Fin n → Int → St n κ → Prop) (before : List (Moment n κ)) (e : Moment n κ) : Prop :=
  ∀ me pid ppid state, e.act = .info me (.told pid ppid state) → During me before (P me ppid)

/-- The ghost states against the record. -/
structure Found (P : Fin n → Int → St n κ → Prop) (w : List (Moment n κ)) (L : Thread n κ → Asks n κ) : Prop where
  self : ∀ t, (L t).me = t
  busy : ∀ p, (L (.proc p)).busy → (lastCall p w).isSome
  found : ∀ p, ∀ v ∈ (L (.proc p)).found, During p w (P p v)
  backed : Interleave.Orderly (Backed P) w

/-- What a condition on steps must ensure for reports to be as `P` says. -/
structure Ensures (cond : Thread n κ → Act n → St n κ → Prop) (P : Fin n → Int → St n κ → Prop) : Prop where
  orphan : ∀ {t p s}, cond t (.info p .parent) s → (s.proc p).parent = none → P p 0 s
  pid : ∀ {t p q s}, cond t (.info p (.ppid q)) s → P p (s.proc q).pid s

section Step

variable {w : List (Moment n κ)} {L L' : Thread n κ → Asks n κ} {i : Thread n κ} {a : Act n} {s s' : St n κ} {r : Res a}
variable {c : κ} {e : Moment n κ}

omit [DecidableEq κ] in
/-- An action that begins no call. -/
theorem Found.more (F : Found P w L) (old : ∀ p, begins p e = false) (backed : Backed P w e) (self : ∀ t, (L' t).me = t)
    (busy : ∀ p, (L' (.proc p)).busy → (L (.proc p)).busy)
    (found : ∀ p, ∀ v ∈ (L' (.proc p)).found, v ∈ (L (.proc p)).found ∨ ((L (.proc p)).busy ∧ P p v e.state)) :
    Found P (w ++ [e]) L' := by
  refine ⟨self, fun p h => ?_, fun p v mem => ?_, F.backed.append backed⟩
  · rw [lastCall_snoc, old p]
    simpa using F.busy p (busy p h)
  · rcases found p v mem with before | ⟨asked, holds⟩
    · exact (F.found p v before).append (old p)
    · exact .now (F.busy p asked) (old p) holds

/-- A step that finds nothing, tells nothing and begins no call. -/
theorem Found.keep (F : Found P w L) (old : ∀ p, begins p ⟨i, a, s⟩ = false) (next : (L i).next a r = L i)
    (backed : Backed P w ⟨i, a, s⟩) : Found P (w ++ [⟨i, a, s⟩]) (Function.update L i ((L i).next a r)) := by
  rw [next, Function.update_eq_self]
  exact F.more old backed F.self (fun _ => id) fun _ _ => Or.inl

/-- A step that finds `v`. -/
theorem Found.find {p : Fin n} (F : Found P w L) (old : ∀ p, begins p ⟨i, a, s⟩ = false) (act : i = .proc p) {v : Int}
    (next : (L i).next a r = { L i with found := insert v (L i).found }) (backed : Backed P w ⟨i, a, s⟩)
    (asked : (L i).busy) (holds : P p v s) : Found P (w ++ [⟨i, a, s⟩]) (Function.update L i ((L i).next a r)) := by
  subst act
  rw [next]
  refine F.more old backed (fun t => ?_) (fun q => ?_) fun q u mem => ?_
  · rw [field_update (f := Asks.me) (by rfl)]
    exact F.self t
  · rw [field_update (f := Asks.busy) (by rfl)]
    exact id
  · by_cases here : q = p
    · subst here
      rw [Function.update_self] at mem
      rcases mem with rfl | before
      · exact Or.inr ⟨asked, holds⟩
      · exact Or.inl before
    · rw [Function.update_of_ne fun e => here (Thread.proc.inj e)] at mem
      exact Or.inl mem

/-- `sys_getprocinfo` begins. -/
theorem Found.begin {p : Fin n} (F : Found P w L) (act : i = .proc p) :
    Found P (w ++ [⟨i, .info p .pid, s⟩]) (Function.update L i { L i with busy := True, found := ∅ }) := by
  subst act
  have other : ∀ q, q ≠ p → begins q (⟨.proc p, .info p .pid, s⟩ : Moment n κ) = false := by
    intro q hq
    simp [begins, Ne.symm hq]
  refine ⟨fun t => ?_, fun q busy => ?_, fun q v mem => ?_, F.backed.append (fun _ _ _ _ told => by cases told)⟩
  · rw [field_update (f := Asks.me) (by rfl)]
    exact F.self t
  · by_cases here : q = p
    · subst here
      simp [lastCall_snoc, begins]
    · rw [Function.update_of_ne fun e => here (Thread.proc.inj e)] at busy
      simpa [lastCall_snoc, other q here] using F.busy q busy
  · by_cases here : q = p
    · subst here
      rw [Function.update_self] at mem
      exact absurd mem (Set.notMem_empty v)
    · rw [Function.update_of_ne fun e => here (Thread.proc.inj e)] at mem
      exact (F.found q v mem).append (other q here)

theorem Found.step (F : Found P w L) (E : Ensures cond P) (ok : Asks.pre a (L i)) (meets : cond i a s)
    (hx : cpuExec c a s r s') : Found P (w ++ [⟨i, a, s⟩]) (Function.update L i ((L i).next a r)) := by
  have old : ∀ (p : Fin n) (o : Info n), o ≠ .pid → ∀ q, begins q (⟨i, .info p o, s⟩ : Moment n κ) = false := by
    intro p o other q
    cases o with
    | pid => exact absurd rfl other
    | _ => cases i <;> rfl
  cases a with
  | info p o =>
    obtain ⟨rfl, -⟩ := hx
    cases o with
    | pid => exact F.begin ((F.self i).symm.trans ok)
    | parent =>
      obtain ⟨me, busy⟩ := ok
      have quiet : Backed P w ⟨i, .info p .parent, s⟩ := fun _ _ _ _ told => by cases told
      cases parent : (s.proc p).parent with
      | none =>
        refine F.find (old p .parent nofun) ((F.self i).symm.trans me) ?_ quiet busy (E.orphan meets parent)
        simp only [Info.answer, parent, Asks.next]
      | some q =>
        refine F.keep (old p .parent nofun) ?_ quiet
        simp only [Info.answer, parent, Asks.next]
    | ppid q =>
      obtain ⟨me, busy⟩ := ok
      exact F.find (old p (.ppid q) nofun) ((F.self i).symm.trans me) rfl (fun _ _ _ _ told => by cases told) busy
        (E.pid meets)
    | told pid ppid state =>
      obtain ⟨me, found⟩ := ok
      obtain rfl : i = .proc p := (F.self i).symm.trans me
      refine F.keep (old p _ nofun) rfl ?_
      rintro me' pid' ppid' state' act
      obtain ⟨rfl, heq⟩ := Act.info.inj act
      obtain ⟨rfl, rfl, rfl⟩ := Info.told.inj heq
      exact F.found _ _ found
  | _ => exact F.keep (fun p => by cases i <;> rfl) rfl (fun _ _ _ _ told => by cases told)

end Step

/-! ## Runs -/

def Asks.rules (initproc : Fin n) (E : Ensures cond P) : Logic (((sys initproc).restrict cond).watch) (Asks n κ) where
  inv w _ L := Found P w L
  pre := Asks.pre
  post := Asks.post
  fin _ := True
  run_sound := by
    rintro w s L i a r s' F ok ⟨meets, c, -, hx⟩
    exact ⟨_, rfl, F.step E ok meets hx⟩
  call_sound := by
    intro w s L i p F _ starts
    refine ⟨L i, ?_, by rwa [Function.update_eq_self]⟩
    rcases calls_cases (show calls initproc i s p from starts) with plain | ⟨me, trap, rfl, rfl⟩
    · exact wp_mono (silent_wp (plain.heeds plain_silent)) fun _ _ _ => trivial
    · exact usertrap_finds (F.self _) trap
  env_sound := by
    rintro w s L th o s' th' F verified ⟨rfl, o', moves⟩
    refine ⟨L, by rwa [List.append_nil], fun t => ?_⟩
    rcases env_cases (show Env s th o' s' th' from moves) t with same | ⟨q, plain, before⟩ | plain | ⟨p, k, code, rest⟩
    · rw [same]
      exact verified t
    · rw [before]
      exact silent_then plain fun _ => verified t
    · exact wp_mono (silent_wp (plain.heeds plain_silent)) fun _ _ _ => trivial
    · have here := verified t
      rw [code] at here
      rw [rest]
      exact here.2 () _ rfl

/-- In every run whose steps meet the condition, reports are as `P` says. -/
theorem reach_backed (E : Ensures cond P) {w : List (Moment n κ)} {s : St n κ} {th : Thread n κ → Code n Unit}
    (run : ((sys initproc).restrict cond).watch.Reach (boot initproc) (bootPool initproc fsinit) w s th) :
    Interleave.Orderly (Backed P) w := by
  have start : Found P [] fun t : Thread n κ => (⟨t, False, ∅⟩ : Asks n κ) :=
    ⟨fun _ => rfl, fun _ => False.elim, fun _ v mem => absurd mem (Set.notMem_empty v), .nil⟩
  have verified : (Asks.rules initproc E).Verified (bootPool initproc fsinit)
      fun t : Thread n κ => (⟨t, False, ∅⟩ : Asks n κ) := fun t =>
    wp_mono (silent_wp ((bootPool_plain initproc fsinit t).heeds plain_silent)) fun _ _ _ => trivial
  obtain ⟨L, F, -⟩ := (Asks.rules initproc E).reach_inv start verified run
  exact F.backed

/-- When `sys_getprocinfo` reads the pid of a process, that is still the caller's parent. -/
def StillParent (_ : Thread n κ) (a : Act n) (s : St n κ) : Prop :=
  ∀ p q, a = .info p (.ppid q) → (s.proc p).parent = some q

def stillParent (a : Act n) (s : St n κ) : Bool :=
  match a with
  | .info p (.ppid q) => decide ((s.proc p).parent = some q)
  | _ => true

/-- `ppid` is the pid of a process that is the parent of `me`, or it is 0 and `me` has none. -/
def Parenthood (me : Fin n) (ppid : Int) (s : St n κ) : Prop :=
  (∃ q, (s.proc me).parent = some q ∧ (s.proc q).pid = ppid) ∨ ((s.proc me).parent = none ∧ ppid = 0)

omit [DecidableEq κ] in
theorem stillParent_ensures : Ensures (StillParent : Thread n κ → Act n → St n κ → Prop) Parenthood where
  orphan _ parent := Or.inr ⟨parent, rfl⟩
  pid meets := Or.inl ⟨_, meets _ _ rfl, rfl⟩

/-- Parents have positive pids. -/
def PositiveParents (s : St n κ) : Prop := ∀ p q, (s.proc p).parent = some q → 0 < (s.proc q).pid

/-- While the counter of `allocpid` has not wrapped, parents have positive pids. -/
theorem reach_positive (ok : fsinit.Disciplined .sleep) {tr : List (Ev n κ)} {s : St n κ} {th : Thread n κ → Code n Unit}
    (run : ((sys initproc).restrict CountsUp).Reach (boot initproc) (bootPool initproc fsinit) tr s th) :
    PositiveParents s := by
  intro p q parent
  obtain ⟨L, inv, N, -⟩ := numbered_keeps.reach (boot_numbered initproc) ok run
  have live := inv.family.parents p q parent
  exact N.pos q fun unused => not_live (Or.inl unused) live

omit [DecidableEq κ] in
/-- A report of 0 says that there was no parent, if parents have positive pids. -/
theorem positive_ensures :
    Ensures (fun (t : Thread n κ) a s => (StillParent t a s ∧ CountsUp t a s) ∧ PositiveParents s)
      fun me ppid s => ppid = 0 → (s.proc me).parent = none where
  orphan _ parent _ := parent
  pid meets zero := absurd zero (meets.2 _ _ (meets.1.1 _ _ rfl)).ne'

/-- What a command records. -/
def Cmd.moments (cmd : Cmd) (s : St n Unit) (th : Thread n Unit → Code n Unit) : List (Moment n Unit) :=
  match th (s.running ()), cmd with
  | .act a _, .step _ => [⟨s.running (), a, s⟩]
  | _, _ => []

theorem Cmd.watch_sound {test : Act n → St n Unit → Bool} {cmd : Cmd} {s s' : St n Unit}
    {th th' : Thread n Unit → Code n Unit} {o : List (Ev n Unit)} (ok : cmd.Ok)
    (h : cmd.move initproc test s th = some (o, s', th')) :
    (((sys initproc).restrict fun _ a s => test a s = true).watch).Step s th (cmd.moments s th) s' th' := by
  rw [move] at h
  split at h
  · rename_i idle
    obtain ⟨p, starts, heq⟩ := Option.map_eq_some_iff.mp h
    cases heq
    have nothing : cmd.moments s th = [] := by
      simp only [moments, idle]
    rw [nothing]
    exact .call idle (starts_sound ok starts)
  · rename_i a k code
    cases cmd with
    | step answer =>
      dsimp only at h
      split at h
      · rename_i r s₁ exec passed
        cases h
        have one : (Cmd.step answer).moments s th = [⟨s.running (), a, s⟩] := by
          simp only [moments, code]
        rw [one]
        exact .run (M := ((sys initproc).restrict fun _ a s => test a s = true).watch) code
          ⟨passed, (), rfl, cpuStep_sound exec⟩
      · cases h
    | context =>
      have nothing : Cmd.context.moments s th = [] := by
        simp only [moments, code]
      rw [nothing]
      dsimp only at h
      split at h
      · cases h
        exact .env ⟨rfl, [], .setContext rfl code⟩
      · cases h
    | tick =>
      have nothing : Cmd.tick.moments s th = [] := by
        simp only [moments, code]
      rw [nothing]
      dsimp only at h
      split at h
      · rename_i on
        cases h
        exact .env ⟨rfl, [], .interrupt rfl on code rfl⟩
      · cases h
    | _ => cases h

/-- Computes runs with their history. -/
def watcher (initproc : Fin n) (test : Act n → St n Unit → Bool) :
    Mover (((sys initproc : Sys (Thread n Unit) (Act n) Res (St n Unit) (Ev n Unit)).restrict
      fun _ a s => test a s = true).watch) Cmd where
  move cmd s th := (cmd.move initproc test s th).map fun x => (cmd.moments s th, x.2)
  allowed := Cmd.Ok
  sound := by
    intro cmd s th w s' th' ok moved
    obtain ⟨⟨o, s₁, th₁⟩, move, same⟩ := Option.map_eq_some_iff.mp moved
    cases same
    exact Cmd.watch_sound ok move

/-- A process forks. -/
def forks (m : Nat) : List Cmd :=
  .trap (.syscall (.fork (pure ())) (pure ())) :: List.replicate m (.step 1) ++ .context :: List.replicate 26 (.step 1) ++
    .finish :: List.replicate 4 (.step 0)

/-- init forks process 1 and waits; process 1 forks process 2, which calls `sys_getprocinfo` and is interrupted when
it is about to read the pid of process 1; process 1 exits, and init reaps it. -/
def orphanAsks : List Cmd :=
  startInit ++ forks 18 ++ .trap (.syscall (.wait 0) (pure ())) :: List.replicate 7 (.step 0) ++
    .look :: List.replicate 46 (.step 0) ++ forks 26 ++ .trap (.timer (pure ()) (pure ())) :: List.replicate 31 (.step 0) ++
    .trap (.syscall .getprocinfo (pure ())) :: List.replicate 6 (.step 0) ++ .tick :: List.replicate 17 (.step 0) ++
    .schedule :: List.replicate 24 (.step 0) ++ .trap (.syscall (.exit (pure ()) 0) (pure ())) :: List.replicate 48 (.step 0) ++
    .tick :: List.replicate 17 (.step 0) ++ .schedule :: List.replicate 18 (.step 0) ++
    .look :: List.replicate 17 (.step 0) ++ .finish :: List.replicate 4 (.step 0) ++
    .trap (.timer (pure ()) (pure ())) :: List.replicate 40 (.step 0) ++ List.replicate 2 (.step 1)

theorem forks_ok (m : Nat) : ∀ c ∈ forks m, c.Ok := by
  simp only [forks, List.cons_append, List.append_assoc, List.forall_mem_cons, List.forall_mem_append]
  exact ⟨⟨disciplined_nothing, disciplined_nothing⟩, steps_ok m 1, trivial, steps_ok 26 1, trivial, steps_ok 4 0⟩

theorem orphanAsks_ok : ∀ c ∈ orphanAsks, c.Ok := by
  simp only [orphanAsks, List.append_assoc, List.cons_append, List.forall_mem_cons, List.forall_mem_append]
  exact ⟨startInit_ok, forks_ok 18, ⟨trivial, disciplined_nothing⟩, steps_ok 7 0, trivial, steps_ok 46 0, forks_ok 26,
    ⟨disciplined_nothing, disciplined_nothing⟩, steps_ok 31 0, ⟨trivial, disciplined_nothing⟩, steps_ok 6 0, trivial,
    steps_ok 17 0, trivial, steps_ok 24 0, ⟨disciplined_nothing, disciplined_nothing⟩, steps_ok 48 0, trivial,
    steps_ok 17 0, trivial, steps_ok 18 0, trivial, steps_ok 17 0, trivial, steps_ok 4 0,
    ⟨disciplined_nothing, disciplined_nothing⟩, steps_ok 40 0, steps_ok 2 1⟩

/-- `me` reports `pid` and `ppid`. -/
def reports (me : Fin n) (pid ppid : Int) (e : Moment n κ) : Bool :=
  match e.act with
  | .info p (.told v u _) => decide (p = me) && decide (v = pid) && decide (u = ppid)
  | _ => false

/-- `me` has a parent, whose pid is not 0. -/
def parented (me : Fin n) (e : Moment n κ) : Bool :=
  (e.state.proc me).parent.any fun q => decide ((e.state.proc q).pid ≠ 0)

omit [DecidableEq κ] in
/-- A record that ends with a report. -/
theorem exists_report {w : List (Moment n κ)} {pid ppid : Int} (h : w.getLast?.any (reports me pid ppid) = true) :
    ∃ t s state, w = w.dropLast ++ [⟨t, .info me (.told pid ppid state), s⟩] := by
  cases last : w.getLast? with
  | none =>
    rw [last] at h
    cases h
  | some e =>
    rw [last] at h
    have split := List.dropLast_append_getLast? e (Option.mem_def.mpr last)
    obtain ⟨t, a, s⟩ := e
    simp only [Option.any_some, reports] at h
    split at h
    · simp only [Bool.and_eq_true, decide_eq_true_eq] at h
      obtain ⟨⟨rfl, rfl⟩, rfl⟩ := h
      exact ⟨t, s, _, split.symm⟩
    · cases h

/-- A child of init calls `sys_getprocinfo`. -/
def childAsks : List Cmd :=
  startInit ++ forks 18 ++ .trap (.timer (pure ()) (pure ())) :: List.replicate 31 (.step 0) ++
    .trap (.syscall .getprocinfo (pure ())) :: List.replicate 10 (.step 1)

theorem childAsks_ok : ∀ c ∈ childAsks, c.Ok := by
  simp only [childAsks, List.append_assoc, List.cons_append, List.forall_mem_cons, List.forall_mem_append]
  exact ⟨startInit_ok, forks_ok 18, ⟨disciplined_nothing, disciplined_nothing⟩, steps_ok 31 0,
    ⟨trivial, disciplined_nothing⟩, steps_ok 10 1⟩

end Xv6.Process
