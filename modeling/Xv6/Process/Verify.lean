import Mathlib
import Xv6.Process.Ghost

/-!
# The code against the ghost state

One lemma per function of `kernel/proc.c`: from which ghost state it may be called and which ghost
state it leaves. Code that an interrupt may put anywhere (`kerneltrap`) and client code leave the
ghost state exactly as they found it.
-/

namespace Xv6.Process

open Interleave

variable {n : Nat} {κ : Type} [DecidableEq κ] {initproc : Fin n} {α β : Type} {l l' l'' : Gh n κ}

/-! ## Steps and sequences -/

/-- `p` may be executed in `l` and leaves `l'`. -/
def Does (initproc : Fin n) (p : Code n α) (l l' : Gh n κ) : Prop :=
  p.wp (pre initproc) (post initproc) l (fun _ m => m = l')

theorem Does.bind {p : Code n α} {f : α → Code n β} (first : Does initproc p l l')
    (second : ∀ x, Does initproc (f x) l' l'') : Does initproc (p >>= f) l l'' := by
  refine Prog.wp_seq first ?_
  rintro x m rfl
  exact second x

/-- Run `p`, then verify the rest. -/
theorem Does.then {p : Code n α} {f : α → Code n β} {Q : β → Gh n κ → Prop}
    (first : Does initproc p l l')
    (second : ∀ x, (f x).wp (pre initproc) (post initproc) l' Q) :
    (p >>= f).wp (pre initproc) (post initproc) l Q := by
  refine Prog.wp_seq first ?_
  rintro x m rfl
  exact second x

theorem Does.wp {p : Code n α} {Q : α → Gh n κ → Prop} (does : Does initproc p l l')
    (goal : ∀ x, Q x l') : p.wp (pre initproc) (post initproc) l Q := by
  refine Prog.wp_mono does ?_
  rintro x m rfl
  exact goal x

theorem does_pure (x : α) : Does initproc (pure x : Code n α) l l := rfl

theorem does_req (a : Act n) (l' : Gh n κ) (ok : pre initproc a l)
    (moves : ∀ r, next initproc a l r = l') : Does initproc (req a) l l' :=
  ⟨ok, fun r _ h => h.2.trans (moves r)⟩

/-- Execute one action and use its answer. -/
theorem wp_req {a : Act n} {f : Res a → Code n β} {Q : β → Gh n κ → Prop} (ok : pre initproc a l)
    (rest : ∀ r, tells a l r → (f r).wp (pre initproc) (post initproc) (next initproc a l r) Q) :
    (req a >>= f).wp (pre initproc) (post initproc) l Q := by
  refine ⟨ok, ?_⟩
  rintro r m ⟨told, rfl⟩
  exact rest r told

theorem wp_holding {lk : Lock n} {f : Bool → Code n β} {Q : β → Gh n κ → Prop}
    (rest : ∀ r : Bool, (r = true ↔ lk ∈ l.held) → (f r).wp (pre initproc) (post initproc) l Q) :
    (holding lk >>= f).wp (pre initproc) (post initproc) l Q :=
  wp_req (a := .holding lk) trivial fun r told => rest r told

theorem wp_mycpu {f : Cpu n → Code n β} {Q : β → Gh n κ → Prop}
    (rest : ∀ c : Cpu n, tells .mycpu l c → (f c).wp (pre initproc) (post initproc) l Q) :
    (mycpu >>= f).wp (pre initproc) (post initproc) l Q :=
  wp_req (a := .mycpu) trivial fun c told => rest c told

theorem wp_read {p : Fin n} {f : Proc n → Code n β} {Q : β → Gh n κ → Prop}
    (rest : ∀ x : Proc n, tells (.read p) l x →
      (f x).wp (pre initproc) (post initproc) (l.learn p x) Q) :
    (read p >>= f).wp (pre initproc) (post initproc) l Q :=
  wp_req (a := .read p) trivial fun x told => rest x told

theorem wp_succeeds {f : Bool → Code n β} {Q : β → Gh n κ → Prop}
    (rest : ∀ r : Bool, (f r).wp (pre initproc) (post initproc) l Q) :
    (succeeds >>= f).wp (pre initproc) (post initproc) l Q :=
  wp_req (a := .choose) trivial fun k _ => rest (decide ((k : Nat) ≠ 0))

theorem wp_panic {msg : String} {Q : α → Gh n κ → Prop} (ok : ((∃ p, l.me = .proc p) ∧ l.own = .gone) ∨ msg = "init exiting") :
    (panic msg : Code n α).wp (pre initproc) (post initproc) l Q :=
  ⟨ok, fun e => Empty.elim e⟩

/-- Reading oneself without `wait_lock` says nothing new. -/
theorem Gh.learn_self {me : Fin n} (proc : l.me = .proc me) (away : .wait ∉ l.held) (x : Proc n) :
    l.learn me x = l := by
  obtain ⟨m, held, off, own, slot, pick, seen, child, newpid, chan, pc, reaped, fam⟩ := l
  obtain rfl : m = .proc me := proc
  have wait : Lock.wait ∉ held := away
  simp [Gh.learn, wait]

/-! ## Spinlocks -/

@[simps] def Gh.acquired (l : Gh n κ) (lk : Lock n) : Gh n κ := { l.locked lk with off := l.off + 1 }

@[simps] def Gh.released (l : Gh n κ) (lk : Lock n) : Gh n κ := { l.unlocked lk with off := l.off - 1 }

theorem acquire_does (lk : Lock n) (free : lk ∉ l.held) (room : l.held.length ≤ l.off)
    (slot : l.slot = none) (pick : l.pick = none) : Does initproc (acquire lk) l (l.acquired lk) := by
  refine (does_req .pushOff { l with off := l.off + 1 } trivial fun _ => rfl).then fun _ => ?_
  refine wp_holding fun r told => ?_
  rw [if_neg fun h => free (told.mp h)]
  exact does_req (.lock lk) _ ⟨free, Nat.lt_succ_of_le room, slot, pick⟩ fun _ => rfl

theorem popOff_does (room : l.held.length < l.off) :
    Does initproc popOff l { l with off := l.off - 1 } := by
  refine wp_mycpu fun c told => ?_
  obtain ⟨noff, quiet, -⟩ := told
  rw [if_neg (by rw [quiet (by omega)]; decide), if_neg (by omega)]
  exact does_req .popOff _ room fun _ => rfl

theorem release_does (lk : Lock n) (mem : lk ∈ l.held) (room : l.held.length ≤ l.off)
    (slot : l.slot = none) (pick : l.pick = none) (ok : l.Releases lk) :
    Does initproc (release lk) l (l.released lk) := by
  refine wp_holding fun r told => ?_
  rw [if_pos (told.mpr mem)]
  refine (does_req (.unlock lk) (l.unlocked lk) ⟨mem, slot, pick, ok⟩ fun _ => rfl).then fun _ => ?_
  have shorter : (l.held.erase lk).length = l.held.length - 1 := List.length_erase_of_mem mem
  have pos : 0 < l.held.length := List.length_pos_of_mem mem
  exact popOff_does (l := l.unlocked lk) (show (l.held.erase lk).length < l.off by omega)

/-! ## Giving up the CPU -/

/-- The ghost state of a process that was switched away from, when it is resumed. -/
@[simps] def Gh.resumed (l : Gh n κ) : Gh n κ :=
  { l with own := if l.own = .set .zombie then .gone else .run, fam := { l.fam with fall := False } }

theorem sched_does {me : Fin n} {st : ProcState} (proc : l.me = .proc me) (held : l.held = [.proc me])
    (off : l.off = 1) (own : l.own = .set st) (stopped : st ≠ .running) (seen : l.seen = none) :
    Does initproc (sched me) l l.resumed := by
  refine wp_holding fun r told => ?_
  rw [if_pos (told.mpr (by simp [held]))]
  refine wp_mycpu fun c told => ?_
  rw [if_neg (by rw [told.1, off]; simp)]
  refine wp_read fun x told => ?_
  rw [Gh.learn_self proc (by simp [held])]
  have state : x.state = st := by simpa [own] using told.1 proc
  rw [if_neg (by rw [state]; exact stopped)]
  refine wp_mycpu fun c told => ?_
  rw [if_neg (by rw [told.2.1 (by omega)]; decide)]
  refine wp_mycpu fun c told => ?_
  refine (does_req .suspend l.resumed ⟨me, st, proc, held, off, own, seen⟩ fun _ => rfl).then fun _ => ?_
  exact does_req (.setIntena c.intena) _ trivial fun _ => rfl

/-- A process that executes ordinary kernel code. -/
structure Gh.Plain (l : Gh n κ) (me : Fin n) : Prop where
  proc : l.me = .proc me
  own : l.own = .run
  slot : l.slot = none
  pick : l.pick = none
  seen : l.seen = none
  chan : l.chan = none
  fall : ¬ l.fam.fall

theorem Fam.stay {f : Fam n} (h : ¬ f.fall) : { f with fall := False } = f := by
  obtain ⟨kids, clear, awake, calm, parent, owe, fall⟩ := f
  simpa using h

/-- A thread that may be interrupted: it is in no critical section. -/
structure Gh.Interruptible (l : Gh n κ) : Prop where
  held : l.held = []
  off : l.off = 0
  slot : l.slot = none
  pick : l.pick = none
  seen : l.seen = none
  proc : ∀ p, l.me = .proc p → l.own = .run ∧ ¬ l.fam.fall

theorem yield_does {me : Fin n} (h : l.Interruptible) (proc : l.me = .proc me) :
    Does initproc (yield me) l l := by
  obtain ⟨held, off, slot, pick, seen, self⟩ := h
  obtain ⟨own, fall⟩ := self me proc
  refine Does.bind (acquire_does (.proc me) (by simp [held]) (by simp [held]) slot pick) fun _ => ?_
  refine Does.bind (does_req (.setState me .runnable) _ ⟨proc, by simp, own, Or.inl rfl⟩
    fun _ => rfl) fun _ => ?_
  refine Does.bind (sched_does proc (by simp [held]) (by simp [off]) rfl (by decide)
    (by simp [seen])) fun _ => ?_
  refine Does.wp (release_does (.proc me) (by simp) (by simp [held]) slot pick
    ⟨fun _ => ⟨by simp, id⟩, fun away => absurd proc away⟩) fun _ => ?_
  obtain ⟨m, hs, o, w, sl, pk, sn, child, newpid, ch, pc, reaped, fam⟩ := l
  dsimp only at held off own seen fall
  subst held off own seen
  simp [Gh.released, Gh.resumed, Gh.acquired, Gh.locked, Gh.unlocked, Fam.stay fall]

/-- What a process knows after it slept with `lk`. -/
def Gh.slept (l : Gh n κ) (lk : Lock n) : Gh n κ :=
  { l with fam := if lk = .wait then .blank else l.fam }

theorem sleep_does {me : Fin n} {chan : Chan n} {lk : Lock n} (plain : l.Plain me)
    (held : l.held = [lk]) (off : l.off = 1) (other : ∀ q, lk ≠ .proc q) (owe : lk = .wait → ¬ l.fam.owe)
    (own_chan : ∀ q, chan = .proc q → q = me ∧ lk = .wait ∧ ∀ q, q ∈ l.fam.calm) :
    Does initproc (sleep me chan lk) l (l.slept lk) := by
  obtain ⟨proc, own, slot, pick, seen, nochan, fall⟩ := plain
  refine Does.bind (acquire_does (.proc me) (by simp [held, (other me).symm]) (by simp [held, off])
    slot pick) fun _ => ?_
  have releases : (l.acquired (.proc me)).Releases lk := by
    cases lk with
    | wait => simpa [Gh.Releases] using owe rfl
    | proc q => exact absurd rfl (other q)
    | other k => trivial
  refine Does.bind (release_does lk (by simp [held]) (by simp [held, off]) slot pick releases) fun _ => ?_
  have erased : [Lock.proc me, lk].erase lk = [.proc me] := by
    simp [List.erase_cons_tail, (other me).symm]
  refine Does.bind (does_req (.setChan me (some chan)) _
    ⟨proc, by simp [held, erased], own, fun q h => (own_chan q (Option.some.inj h)).1⟩ fun _ => rfl) fun _ => ?_
  refine Does.bind (does_req (.setState me .sleeping) _
    ⟨proc, by simp [held, erased], own, Or.inr (Or.inl ⟨rfl, fun q h => ?_⟩)⟩ fun _ => rfl) fun _ => ?_
  · obtain ⟨rfl, rfl, calm⟩ := own_chan q (Option.some.inj h)
    simp [calm, proc]
  refine Does.bind (sched_does proc (by simp [held, erased]) (by simp [off]) rfl (by decide)
    (by simp [seen])) fun _ => ?_
  refine Does.bind (does_req (.setChan me none) _ ⟨proc, by simp [held, erased], by simp, nofun⟩
    fun _ => rfl) fun _ => ?_
  refine Does.bind (release_does (.proc me) (by simp [held, erased]) (by simp [held, erased, off]) slot pick
    ⟨fun _ => ⟨by simp, id⟩, fun away => absurd proc away⟩) fun _ => ?_
  refine Does.wp (acquire_does lk (by simp [held, erased]) (by simp [held, erased, off]) slot pick) fun _ => ?_
  obtain ⟨m, hs, o, w, sl, pk, sn, child, newpid, ch, pc, reaped, fam⟩ := l
  dsimp only at held off own seen fall nochan
  subst held off own seen nochan
  by_cases wait : lk = .wait
  · subst wait
    simp [Gh.slept, Gh.released, Gh.resumed, Gh.acquired, Gh.locked, Gh.unlocked]
  · simp [Gh.slept, Gh.released, Gh.resumed, Gh.acquired, Gh.locked, Gh.unlocked, wait, Fam.stay fall,
      erased]

/-! ## Loops over the table -/

theorem forSlots_does {body : Fin n → Code n Unit} (each : ∀ p, Does initproc (body p) l l)
    (ps : List (Fin n)) : Does initproc (forSlots body ps) l l := by
  induction ps with
  | nil => exact does_pure ()
  | cons p ps ih => exact (each p).bind fun _ => ih

/-- A wakeup on a channel that is no process leaves no trace. -/
theorem wakeup_does {me : Option (Fin n)} {chan : Option (Chan n)} (free : ∀ p, .proc p ∉ l.held)
    (other : ∀ p, chan ≠ some (.proc p)) : Does initproc (wakeup me chan) l l := by
  refine forSlots_does (fun p => ?_) _
  rw [wakeupOne]
  split
  · exact does_req (.wakeOne chan p) _ (free p) fun _ => by rw [next, if_neg (other p)]
  · exact does_pure ()

theorem killFrom_does {pid : Int} (free : ∀ p, .proc p ∉ l.held) (ps : List (Fin n)) :
    Does initproc (killFrom pid ps) l l := by
  induction ps with
  | nil => exact does_pure _
  | cons p ps ih =>
    refine (does_req (.killOne pid p) l (free p) fun _ => rfl).bind fun (r : Bool) => ?_
    cases r with
    | true => exact does_pure _
    | false => exact ih

theorem setpriorityFrom_does {pid priority : Int} (free : ∀ p, .proc p ∉ l.held)
    (ps : List (Fin n)) : Does initproc (setpriorityFrom pid priority ps) l l := by
  induction ps with
  | nil => exact does_pure _
  | cons p ps ih =>
    refine (does_req (.priorityOne pid priority p) l (free p) fun _ => rfl).bind fun (r : Bool) => ?_
    cases r with
    | true => exact does_pure _
    | false => exact ih

/-! ## Clients -/

/-- The ghost state with locks of a client on top. -/
@[simps] def Gh.plus (l : Gh n κ) (hs : List Nat) : Gh n κ :=
  { l with held := hs.map .other ++ l.held, off := hs.length + l.off }

omit [DecidableEq κ] in
theorem Gh.plus_nil (l : Gh n κ) : l.plus [] = l := by
  simp [Gh.plus]

/-- The conditions under which client code runs: no lock of its kind is held, no `p->lock` if it
calls `wakeup`, and none at all if it sleeps. -/
structure Gh.Hosts (l : Gh n κ) (me : Option (Fin n)) (may : Leave) : Prop where
  slot : l.slot = none
  pick : l.pick = none
  room : l.held.length ≤ l.off
  apart : ∀ k, .other k ∉ l.held
  wake : may ≠ .none → ∀ p, .proc p ∉ l.held
  sleep : may = .sleep → l.held = [] ∧ l.off = 0 ∧ ∃ p, me = some p ∧ l.Plain p

omit [DecidableEq κ] in
theorem Gh.Plain.plus {me : Fin n} (plain : l.Plain me) (hs : List Nat) : (l.plus hs).Plain me :=
  ⟨plain.proc, plain.own, plain.slot, plain.pick, plain.seen, plain.chan, plain.fall⟩

theorem clientImpl_does {me : Option (Fin n)} {may : Leave} (hosts : l.Hosts me may) {a : ClientAct}
    {hs : List Nat} (ok : clientPre may a hs) :
    (clientImpl me a).wp (pre initproc) (post initproc) (l.plus hs)
      (fun r m => ∃ hs', clientPost a hs r hs' ∧ m = l.plus hs') := by
  have room : (l.plus hs).held.length ≤ (l.plus hs).off := by
    have := hosts.room
    simp only [Gh.plus_held, Gh.plus_off, List.length_append, List.length_map]
    omega
  cases a with
  | acquire k =>
    have free : Lock.other k ∉ (l.plus hs).held := by
      have new : k ∉ hs := ok
      simpa [hosts.apart k] using new
    refine Does.wp (acquire_does (.other k) free room hosts.slot hosts.pick) fun _ => ⟨k :: hs, rfl, ?_⟩
    simp [Gh.acquired, Gh.locked, Gh.plus]
    omega
  | release k =>
    have mem : k ∈ hs := ok
    have erase : (hs.map Lock.other ++ l.held).erase (.other k) = (hs.erase k).map .other ++ l.held := by
      have inj : Function.Injective (Lock.other : Nat → Lock n) := fun _ _ h => Lock.other.inj h
      rw [List.erase_append_left _ (List.mem_map_of_mem mem), List.map_erase inj]
    refine Does.wp (release_does (.other k) (by simp [mem]) room hosts.slot hosts.pick trivial)
      fun _ => ⟨hs.erase k, rfl, ?_⟩
    have count := List.length_erase_of_mem mem
    have pos := List.length_pos_of_mem mem
    have seen : l.seen.map (fun x => Lock.proc x.slot) ≠ some (.other k) := by
      cases l.seen <;> simp
    simp only [Gh.released, Gh.unlocked, Gh.plus, erase, reduceCtorEq, if_false]
    congr 1
    · omega
    · exact if_neg seen
  | sleep chan k =>
    obtain ⟨may, rfl⟩ := ok
    obtain ⟨held, off, p, rfl, plain⟩ := hosts.sleep may
    refine Does.wp (sleep_does (plain.plus [k]) (by simp [held]) (by simp [off]) nofun nofun nofun)
      fun _ => ⟨[k], rfl, ?_⟩
    simp [Gh.slept, Gh.plus]
  | wakeup chan =>
    have free : ∀ p, Lock.proc p ∉ (l.plus hs).held := by
      intro p
      simpa using hosts.wake ok p
    exact Does.wp (wakeup_does free nofun) fun _ => ⟨hs, rfl, rfl⟩
  | choose => exact Does.wp (does_req .choose (l.plus hs) trivial fun _ => rfl) fun _ => ⟨hs, rfl, rfl⟩

theorem client_wp {me : Option (Fin n)} {may : Leave} (hosts : l.Hosts me may) {c : Client}
    {hs : List Nat} {Q : Unit → List Nat → Prop} (ok : c.wp (clientPre may) clientPost hs Q) :
    (c.code me).wp (pre initproc) (post initproc) (l.plus hs)
      (fun x m => ∃ hs', Q x hs' ∧ m = l.plus hs') := by
  induction c generalizing hs with
  | ret x => exact ⟨hs, ok, rfl⟩
  | act a k ih =>
    refine Prog.wp_seq (clientImpl_does hosts ok.1) ?_
    rintro r m ⟨hs', moves, rfl⟩
    exact ih r (ok.2 r hs' moves)

theorem client_does {me : Option (Fin n)} {may : Leave} (hosts : l.Hosts me may) {c : Client}
    (ok : c.Disciplined may) : Does initproc (c.code me) l l := by
  have run : (c.code me).wp (pre initproc) (post initproc) (l.plus []) _ := client_wp hosts ok
  rw [Gh.plus_nil] at run
  refine Prog.wp_mono run ?_
  rintro x m ⟨hs, rfl, rfl⟩
  exact l.plus_nil

/-! ## Traps from the kernel -/

/-- An interrupt finds no lock held and leaves the ghost state alone. -/
theorem kerneltrap_does {handler : Client} {timer : Bool} (h : l.Interruptible)
    (ok : handler.Disciplined .wakeup) : Does initproc (kerneltrap l.me.slot handler timer) l l := by
  have held := h.held
  have hosts : l.Hosts l.me.slot .wakeup :=
    ⟨h.slot, h.pick, by simp [held], by simp [held], by simp [held], nofun⟩
  have sret : Does initproc (req .intrOn) l l := does_req .intrOn l h.off fun _ => rfl
  refine Does.bind (client_does hosts ok) fun _ => wp_mycpu fun c told => ?_
  have proc := told.2.2
  cases hme : l.me with
  | cpu d =>
    rw [hme, h.slot] at proc
    rw [proc]
    cases timer <;> exact Does.bind (does_pure ()) fun _ => sret
  | proc p =>
    rw [hme] at proc
    rw [proc]
    cases timer with
    | false => exact Does.bind (does_pure ()) fun _ => sret
    | true =>
      refine wp_read fun x _ => ?_
      rw [Gh.learn_self hme (by simp [held])]
      split
      · exact Does.bind (yield_does h hme) fun _ => sret
      · exact Does.bind (does_pure ()) fun _ => sret

/-! ## fork -/

/-- A process between critical sections. -/
structure Gh.Free (l : Gh n κ) (me : Fin n) : Prop extends l.Plain me where
  held : l.held = []
  off : l.off = 0
  child : l.child = none
  reaped : l.reaped = none

/-- A process that holds the lock of a child it is making. -/
structure Gh.Making (l : Gh n κ) (me np : Fin n) (ready : Bool) : Prop where
  proc : l.me = .proc me
  own : l.own = .run
  slot : l.slot = none
  pick : l.pick = none
  chan : l.chan = none
  fall : ¬ l.fam.fall
  held : l.held = [.proc np]
  off : l.off = 1
  child : l.child = some (np, ready)
  reaped : l.reaped = none
  other : np ≠ me

/-- `freeproc(np); release(&np->lock);` -/
theorem Gh.Making.undo {me np : Fin n} {ready : Bool} (h : l.Making me np ready) :
    (do req (.freeproc np); release (.proc np) : Code n Unit).wp (pre initproc) (post initproc) l
      (fun _ m => m.Free me) := by
  obtain ⟨proc, own, slot, pick, chan, fall, held, off, child, reaped, other⟩ := h
  refine Does.then (does_req (.freeproc np) _ ⟨by simp [held], Or.inl ⟨ready, child⟩⟩ fun _ => rfl)
    fun _ => ?_
  refine Does.wp (release_does (.proc np) (by simp [held]) (by simp [held, off]) slot pick
    ⟨fun _ => ⟨own, fall⟩, nofun⟩) fun _ => ?_
  constructor
  · constructor <;> simp [proc, own, slot, pick, chan, fall]
  all_goals simp [held, off, child, reaped]

/-- The answer of `allocproc`. -/
def Allocated (me : Fin n) : Option (Fin n) → Gh n κ → Prop
  | none, l => l.Free me
  | some np, l => l.Making me np true

theorem allocprocFound_wp {me p : Fin n} (h : l.Free me) (x : Proc n) (other : p ≠ me)
    (unused : x.state = .unused) :
    (allocprocFound p).wp (pre initproc) (post initproc) ((l.acquired (.proc p)).learn p x)
      (Allocated me) := by
  obtain ⟨⟨proc, own, slot, pick, seen, chan, fall⟩, held, off, child, reaped⟩ := h
  have away : l.me ≠ .proc p := by
    rw [proc]
    exact fun e => other (Thread.proc.inj e).symm
  refine Does.then (does_req (.claim p) _ ⟨⟨me, proc⟩, by simp, child, own, ⟨p, x.state, x.pid, x.xstate⟩,
    by simp [away], rfl, unused⟩ fun _ => rfl) fun _ => ?_
  obtain ⟨m, hm⟩ : ∃ m, m = next initproc (.claim p) ((l.acquired (.proc p)).learn p x) 0 := ⟨_, rfl⟩
  have making : m.Making me p false := by
    subst hm
    constructor <;> simp [next, proc, own, slot, pick, chan, fall, held, off, child, reaped, other]
  have undo : (do req (.freeproc p); release (.proc p); pure none : Code n (Option (Fin n))).wp
      (pre initproc) (post initproc) m (Allocated me) := by
    rw [← Prog.bind_assoc]
    exact Prog.wp_seq making.undo fun _ _ free => free
  change Prog.wp _ _ _ (next initproc (.claim p) ((l.acquired (.proc p)).learn p x) 0) _
  rw [← hm]
  refine wp_succeeds fun r => ?_
  cases r with
  | false => exact undo
  | true =>
    refine wp_succeeds fun r => ?_
    cases r with
    | false => exact undo
    | true =>
      refine Does.then (does_req (.setContext p) _ ⟨making.child, by simp [making.held]⟩
        fun _ => rfl) fun _ => ?_
      obtain ⟨proc, own, slot, pick, chan, fall, held, off, child, reaped, other⟩ := making
      exact ⟨proc, own, slot, pick, chan, fall, held, off, rfl, reaped, other⟩

/-- Looking at a process under its lock leaves nothing behind. -/
theorem Gh.Free.look {me : Fin n} (h : l.Free me) (p : Fin n) (x : Proc n) :
    (release (.proc p)).wp (pre initproc) (post initproc) ((l.acquired (.proc p)).learn p x)
      (fun _ m => m.Free me) := by
  obtain ⟨⟨proc, own, slot, pick, seen, chan, fall⟩, held, off, child, reaped⟩ := h
  refine Does.wp (release_does (.proc p) (by simp) (by simp [held]) slot pick
    ⟨fun _ => ⟨own, by simpa [proc, held] using fall⟩, fun _ => by simp [child]⟩) fun _ => ?_
  have unseen : ((((l.acquired (.proc p)).learn p x).released (.proc p))).seen = none := by
    by_cases self : l.me = .proc p
    · simp [self, seen]
    · simp [self]
  constructor
  · constructor <;> first | exact unseen | simp [proc, own, slot, pick, chan, fall, held]
  all_goals simp [held, off, child, reaped]

theorem allocprocFrom_wp {me : Fin n} (h : l.Free me) (ps : List (Fin n)) :
    (allocprocFrom ps).wp (pre initproc) (post initproc) l (Allocated me) := by
  induction ps generalizing l with
  | nil => exact h
  | cons p ps ih =>
    refine Does.then (acquire_does (.proc p) (by simp [h.held]) (by simp [h.held]) h.slot h.pick)
      fun _ => wp_read fun x told => ?_
    split
    · rename_i unused
      have other : p ≠ me := by
        rintro rfl
        have running : x.state = .running := by simpa [h.own] using told.1 h.proc
        rw [running] at unused
        cases unused
      exact allocprocFound_wp h x other unused
    · exact Prog.wp_seq (h.look p x) fun _ m free => ih free

/-- A process whose child is made and does not run yet. -/
structure Gh.Raising (l : Gh n κ) (me np : Fin n) (pid : Int) : Prop extends l.Plain me where
  held : l.held = []
  off : l.off = 0
  child : l.child = some (np, true)
  newpid : l.newpid = some pid
  reaped : l.reaped = none
  other : np ≠ me

/-- `acquire(&wait_lock); np->parent = p; release(&wait_lock);` -/
theorem Gh.Raising.adopt {me np : Fin n} {pid : Int} (h : l.Raising me np pid) :
    (do acquire .wait; req (.setParent np (some me)); release .wait : Code n Unit).wp (pre initproc)
      (post initproc) l (fun _ m => m.Raising me np pid) := by
  obtain ⟨⟨proc, own, slot, pick, seen, chan, fall⟩, held, off, child, newpid, reaped, other⟩ := h
  refine Does.then (acquire_does .wait (by simp [held]) (by simp [held]) slot pick) fun _ => ?_
  refine Does.then (does_req (.setParent np (some me))
    { l.acquired .wait with fam := { (l.acquired .wait).fam with clear := (l.acquired .wait).fam.clear \ {np} } }
    ⟨by simp, own, Or.inl ⟨child, me, rfl, proc⟩⟩ fun _ => by simp [next, child]) fun _ => ?_
  refine Does.wp (release_does .wait (by simp) (by simp [held]) slot pick
    (by simp [Gh.Releases, Fam.blank])) fun _ => ?_
  constructor
  · constructor <;> simp [proc, own, slot, pick, seen, chan, held]
  all_goals simp [held, off, child, newpid, reaped, other]

/-- `acquire(&np->lock); np->state = RUNNABLE; release(&np->lock); return pid;` -/
theorem Gh.Raising.launch {me np : Fin n} {pid : Int} (h : l.Raising me np pid) :
    (do acquire (.proc np); req (.setRunnable np); release (.proc np); req (.forked me pid) :
      Code n Unit).wp (pre initproc) (post initproc) l (fun _ m => m.Free me) := by
  obtain ⟨⟨proc, own, slot, pick, seen, chan, fall⟩, held, off, child, newpid, reaped, other⟩ := h
  refine Does.then (acquire_does (.proc np) (by simp [held]) (by simp [held]) slot pick) fun _ => ?_
  refine Does.then (does_req (.setRunnable np) _ ⟨child, by simp⟩ fun _ => rfl) fun _ => ?_
  refine Does.then (release_does (.proc np) (by simp) (by simp [held]) slot pick
    ⟨fun _ => ⟨own, by simpa using fall⟩, nofun⟩) fun _ => ?_
  refine Does.wp (does_req (.forked me pid) _ newpid fun _ => rfl) fun _ => ?_
  constructor
  · constructor <;> simp [proc, own, slot, pick, chan, fall]
  all_goals simp [held, off, reaped]

/-- The child has all it needs from its parent. -/
theorem Gh.Making.finish {me np : Fin n} (h : l.Making me np true) (x : Proc n) :
    (release (.proc np)).wp (pre initproc) (post initproc) (l.learn np x)
      (fun _ m => m.Raising me np x.pid) := by
  obtain ⟨proc, own, slot, pick, chan, fall, held, off, child, reaped, other⟩ := h
  have away : l.me ≠ .proc np := by
    rw [proc]
    exact fun e => other (Thread.proc.inj e).symm
  refine Does.wp (release_does (.proc np) (by simp [held]) (by simp [held, off]) slot pick
    ⟨fun _ => ⟨own, by simpa [proc, held] using fall⟩, fun _ => by simp [child]⟩) fun _ => ?_
  constructor
  · constructor <;> simp [proc, own, slot, pick, chan, fall, held, other.symm]
  all_goals simp [held, off, child, reaped, away, other]

theorem fork_wp {me : Fin n} {dup : Client} (h : l.Free me) (ok : dup.Disciplined .none) :
    (fork me dup).wp (pre initproc) (post initproc) l (fun _ m => m.Free me) := by
  refine Prog.wp_seq (allocprocFrom_wp h _) fun r m found => ?_
  cases r with
  | none => exact found
  | some np =>
    have making : m.Making me np true := found
    refine wp_succeeds fun r => ?_
    cases r with
    | false => exact making.undo
    | true =>
      have hosts : m.Hosts (some me) .none :=
        ⟨making.slot, making.pick, by simp [making.held, making.off], by simp [making.held],
          fun h => absurd rfl h, nofun⟩
      refine Does.then (client_does hosts ok) fun _ => wp_read fun p _ => ?_
      rw [Gh.learn_self making.proc (by simp [making.held])]
      refine Does.then (does_req (.setPriority np p.priority) m trivial fun _ => rfl) fun _ => ?_
      refine wp_read fun x _ => Prog.wp_seq (making.finish x) fun _ m₁ raising => ?_
      rw [← Prog.bind_assoc, ← Prog.bind_assoc]
      refine Prog.wp_seq ?_ fun _ _ raised => Gh.Raising.launch raised
      rw [Prog.bind_assoc]
      exact raising.adopt

/-! ## exit -/

/-- The ghost state after a wakeup on process `q`. -/
@[simps] def Gh.woke (initproc : Fin n) (l : Gh n κ) (q : Fin n) : Gh n κ :=
  { l with fam := { l.fam with awake := insert q l.fam.awake, owe := l.fam.owe ∧ q ≠ initproc } }

theorem wakeup_proc_does {me q : Fin n} (free : ∀ p, .proc p ∉ l.held) (other : q ≠ me) :
    Does initproc (wakeup (some me) (some (.proc q))) l (l.woke initproc q) := by
  have loop : ∀ (ps : List (Fin n)) {l : Gh n κ}, (∀ p, .proc p ∉ l.held) →
      Does initproc (forSlots (wakeupOne (some me) (some (.proc q))) ps) l
        (if q ∈ ps then l.woke initproc q else l) := by
    intro ps
    induction ps with
    | nil => exact fun _ => does_pure ()
    | cons p ps ih =>
      intro l free
      by_cases here : p = q
      · subst here
        rw [if_pos List.mem_cons_self]
        have wakes : Does initproc (wakeupOne (some me) (some (.proc p)) p) l (l.woke initproc p) := by
          rw [wakeupOne, if_pos (by simpa using other)]
          exact does_req (.wakeOne (some (.proc p)) p) _ (free p) fun _ => if_pos rfl
        refine wakes.bind fun _ => ?_
        have rest := ih (l := l.woke initproc p) free
        have twice : (l.woke initproc p).woke initproc p = l.woke initproc p := by
          simp [Gh.woke]
        rwa [twice, ite_self] at rest
      · have skip : Does initproc (wakeupOne (some me) (some (.proc q)) p) l l := by
          rw [wakeupOne]
          split
          · exact does_req (.wakeOne (some (.proc q)) p) l (free p)
              fun _ => if_neg fun e => here (Chan.proc.inj (Option.some.inj e)).symm
          · exact does_pure ()
        have tail : (q ∈ p :: ps) = (q ∈ ps) := by
          simp [Ne.symm here]
        simp only [tail]
        exact skip.bind fun _ => ih free
  have all := loop (List.finRange n) free
  rwa [if_pos (List.mem_finRange q)] at all

/-- A process that holds `wait_lock` on its way out; the processes in `done` are not its children. -/
structure Gh.Leaving (l : Gh n κ) (me : Fin n) (done : Set (Fin n)) : Prop extends l.Plain me where
  held : l.held = [.wait]
  off : l.off = 1
  child : l.child = none
  reaped : l.reaped = none
  owe : ¬ l.fam.owe
  clear : done ⊆ l.fam.clear

theorem Gh.Leaving.reparentOne {me pp : Fin n} {done : Set (Fin n)} (h : l.Leaving me done)
    (notInit : me ≠ initproc) :
    (reparentOne initproc me pp).wp (pre initproc) (post initproc) l
      (fun _ m => m.Leaving me (insert pp done)) := by
  obtain ⟨⟨proc, own, slot, pick, seen, chan, fall⟩, held, off, child, reaped, owe, clear⟩ := h
  refine wp_read fun x _ => ?_
  have learned : l.learn pp x = { l with fam := l.fam.learn me pp x False } := by
    simp [Gh.learn, proc, held, child]
  rw [learned]
  split
  · rename_i kid
    refine Does.then (does_req (.setParent pp (some initproc)) _ ⟨by simp [held], own,
      Or.inr ⟨child, rfl, ?_, me, notInit, proc⟩⟩ fun _ => if_pos child) fun _ => ?_
    · simp [Fam.learn, kid]
    refine Does.wp (wakeup_proc_does (by simp [held]) notInit.symm) fun _ => ?_
    constructor
    · constructor <;> simp [proc, own, slot, pick, seen, chan, fall, Fam.learn]
    all_goals simp [held, off, child, reaped]
    simpa [Fam.learn, kid] using Set.insert_subset_insert clear
  · rename_i other
    refine ⟨⟨proc, own, slot, pick, seen, chan, fall⟩, held, off, child, reaped, owe, ?_⟩
    simpa [Fam.learn, other] using Set.insert_subset_insert clear

theorem reparent_wp {me : Fin n} (h : l.Leaving me ∅) (notInit : me ≠ initproc) :
    (reparent initproc me).wp (pre initproc) (post initproc) l (fun _ m => m.Leaving me Set.univ) := by
  have loop : ∀ (ps : List (Fin n)) {l : Gh n κ} {done : Set (Fin n)}, l.Leaving me done →
      (∀ q, q ∉ ps → q ∈ done) →
      (forSlots (reparentOne initproc me) ps).wp (pre initproc) (post initproc) l
        (fun _ m => m.Leaving me Set.univ) := by
    intro ps
    induction ps with
    | nil =>
      intro l done leaving rest
      have all : done = Set.univ := Set.eq_univ_of_forall fun q => rest q (by simp)
      exact all ▸ leaving
    | cons pp ps ih =>
      intro l done leaving rest
      refine Prog.wp_seq (leaving.reparentOne notInit) fun _ m next => ih next fun q hq => ?_
      by_cases here : q = pp
      · exact Set.mem_insert_iff.mpr (Or.inl here)
      · exact Set.mem_insert_of_mem _ (rest q (by simp [here, hq]))
  exact loop _ h fun q hq => absurd (List.mem_finRange q) hq

/-- The parent, if there is one, is woken up. -/
theorem Gh.Leaving.notify {me : Fin n} (h : l.Leaving me Set.univ) {x : Proc n}
    (told : tells (.read me) l x) :
    (wakeup (some me) (x.parent.map .proc)).wp (pre initproc) (post initproc) (l.learn me x)
      (fun _ m => m.Leaving me Set.univ ∧ ∃ o, m.fam.parent = some o ∧ ∀ q, o = some q → q ∈ m.fam.awake) := by
  obtain ⟨⟨proc, own, slot, pick, seen, chan, fall⟩, held, off, child, reaped, owe, clear⟩ := h
  have all : ∀ q, q ∈ l.fam.clear := fun q => clear (Set.mem_univ q)
  have notSelf : x.parent ≠ some me := told.2 (by simp [held]) (all me) me proc
  have learned : l.learn me x = { l with fam := l.fam.learn me me x False } := by
    simp [Gh.learn, proc, held, child]
  have cleared : (l.fam.learn me me x False).clear = Set.univ :=
    Set.eq_univ_of_forall fun q => by simp [Fam.learn, notSelf, all q]
  rw [learned]
  cases hp : x.parent with
  | none =>
    refine Does.wp (wakeup_does (by simp [held]) nofun) fun _ => ⟨?_, none, ?_, nofun⟩
    · exact ⟨⟨proc, own, slot, pick, seen, chan, fall⟩, held, off, child, reaped, owe, by simp [cleared]⟩
    · simp [Fam.learn, hp]
  | some q =>
    have other : q ≠ me := fun e => notSelf (e ▸ hp)
    refine Does.wp (wakeup_proc_does (by simp [held]) other) fun _ => ⟨?_, some q, ?_, ?_⟩
    · refine ⟨⟨proc, own, slot, pick, seen, chan, fall⟩, held, off, child, reaped, fun h => owe h.1, ?_⟩
      simp [cleared]
    · simp [Fam.learn, hp]
    · intro p e
      obtain rfl := Option.some.inj e
      simp

/-- `exit` never comes back. -/
theorem exit_wp {me : Fin n} {close : Client} {status : Int} {Q : Unit → Gh n κ → Prop} (h : l.Free me)
    (ok : close.Disciplined .sleep) :
    (exit initproc me close status).wp (pre initproc) (post initproc) l Q := by
  rw [exit]
  split
  · exact wp_panic (Or.inr rfl)
  · rename_i notInit
    have hosts : l.Hosts (some me) .sleep :=
      ⟨h.slot, h.pick, by simp [h.held], by simp [h.held], by simp [h.held],
        fun _ => ⟨h.held, h.off, me, rfl, h.toPlain⟩⟩
    refine Does.then (client_does hosts ok) fun _ => ?_
    refine Does.then (acquire_does .wait (by simp [h.held]) (by simp [h.held]) h.slot h.pick) fun _ => ?_
    have leaving : (l.acquired .wait).Leaving me ∅ := by
      obtain ⟨⟨proc, own, slot, pick, seen, chan, fall⟩, held, off, child, reaped⟩ := h
      constructor
      · constructor <;> simp [proc, own, slot, pick, seen, chan, Fam.blank]
      all_goals simp [held, off, child, reaped, Fam.blank]
    refine Prog.wp_seq (reparent_wp leaving notInit) fun _ m leaving => wp_read fun x told => ?_
    refine Prog.wp_seq (leaving.notify told) fun _ m h => ?_
    obtain ⟨⟨⟨proc, own, slot, pick, seen, chan, fall⟩, held, off, child, reaped, owe, clear⟩, parent⟩ := h
    refine Does.then (acquire_does (.proc me) (by simp [held]) (by simp [held, off]) slot pick) fun _ => ?_
    refine Does.then (does_req (.setXstate me status) _ ⟨proc, by simp, own⟩ fun _ => rfl) fun _ => ?_
    refine Does.then (does_req (.setState me .zombie) _ ⟨proc, by simp, own, Or.inr (Or.inr ⟨rfl, notInit,
      by simp [held], child, reaped, fun q => clear (Set.mem_univ q), owe, parent⟩)⟩ fun _ => rfl) fun _ => ?_
    refine Does.then (release_does .wait (by simp [held]) (by simp [held, off]) slot pick owe) fun _ => ?_
    have erased : [Lock.proc me, .wait].erase .wait = [.proc me] := by
      simp
    refine Does.then (sched_does proc (by simp [held, erased]) (by simp [off]) rfl (by decide)
    (by simp [seen])) fun _ => ?_
    exact wp_panic (Or.inl ⟨⟨me, proc⟩, by simp⟩)

/-! ## wait -/

/-- A process in the loop of `wait`; it has looked at the processes in `done`. -/
structure Gh.Waiting (l : Gh n κ) (me : Fin n) (done : Set (Fin n)) : Prop extends l.Plain me where
  held : l.held = [.wait]
  off : l.off = 1
  child : l.child = none
  reaped : l.reaped = none
  owe : ¬ l.fam.owe
  calm : done ⊆ l.fam.calm

theorem waitFail_wp {me : Fin n} {done : Set (Fin n)} (h : l.Waiting me done) :
    (waitFail me).wp (pre initproc) (post initproc) l (fun _ m => m.Free me ∧ m.pc = .trapEnd) := by
  obtain ⟨⟨proc, own, slot, pick, seen, chan, fall⟩, held, off, child, reaped, owe, calm⟩ := h
  refine Does.then (release_does .wait (by simp [held]) (by simp [held, off]) slot pick owe) fun _ => ?_
  refine Does.wp (does_req (.goto me .trapEnd) _ proc fun _ => rfl) fun _ => ⟨?_, rfl⟩
  constructor
  · constructor <;> simp [proc, own, slot, pick, seen, chan, held]
  all_goals simp [held, off, child, reaped]

omit [DecidableEq κ] in
theorem Gh.Free.fin {me : Fin n} (h : l.Free me) (pc : ∀ addr, l.pc ≠ .waitLoop addr) : fin l := by
  obtain ⟨⟨proc, own, slot, pick, seen, chan, fall⟩, held, off, child, reaped⟩ := h
  refine ⟨own, child, reaped, slot, pick, chan, seen, fall, ?_⟩
  rw [proc]
  split
  · exact absurd ‹_› (pc _)
  · exact ⟨held, off⟩

omit [DecidableEq κ] in
theorem Gh.Waiting.fin {me : Fin n} {done : Set (Fin n)} {addr : Nat} (h : l.Waiting me done)
    (pc : l.pc = .waitLoop addr) : fin l := by
  obtain ⟨⟨proc, own, slot, pick, seen, chan, fall⟩, held, off, child, reaped, owe, calm⟩ := h
  refine ⟨own, child, reaped, slot, pick, chan, seen, fall, ?_⟩
  rw [proc, pc]
  exact ⟨held, off, owe⟩

/-- `release(&np->lock)` in the loop. -/
theorem Gh.Waiting.look {me np : Fin n} {done : Set (Fin n)} (h : l.Waiting me done) (x : Proc n) :
    (release (.proc np)).wp (pre initproc) (post initproc) ((l.acquired (.proc np)).learn np x)
      (fun _ m => m.Waiting me (if x.state = .zombie then done else insert np done)) := by
  obtain ⟨⟨proc, own, slot, pick, seen, chan, fall⟩, held, off, child, reaped, owe, calm⟩ := h
  refine Does.wp (release_does (.proc np) (by simp) (by simp [held, off]) slot pick
    ⟨fun _ => ⟨own, by simpa [proc, held, Fam.learn] using fall⟩, fun _ => by simp [child]⟩) fun _ => ?_
  have unseen : ((((l.acquired (.proc np)).learn np x).released (.proc np))).seen = none := by
    by_cases self : l.me = .proc np
    · simp [self, seen]
    · simp [self]
  constructor
  · constructor <;> first | exact unseen | simp [proc, own, slot, pick, chan, fall, held, Fam.learn]
  all_goals simp [held, off, child, reaped, proc, owe, Fam.learn]
  split
  · split
    · exact calm
    · exact calm.trans (Set.subset_insert _ _)
  · rename_i alive
    rw [if_neg fun h => alive (h.2)]
    exact Set.insert_subset_insert calm

/-- A zombie child is freed and its pid and status are returned. -/
theorem Gh.Waiting.reap {me np : Fin n} {done : Set (Fin n)} (h : l.Waiting me done) (kid : np ∈ l.fam.kids)
    {x : Proc n} (told : tells (.read np) (l.acquired (.proc np)) x) (zombie : x.state = .zombie) :
    (do req (.freeproc np); release (.proc np); waitReturn me x.pid x.xstate : Code n Unit).wp
      (pre initproc) (post initproc) ((l.acquired (.proc np)).learn np x)
      (fun _ m => m.Free me ∧ m.pc = .trapEnd) := by
  obtain ⟨⟨proc, own, slot, pick, seen, chan, fall⟩, held, off, child, reaped, owe, calm⟩ := h
  have other : l.me ≠ .proc np := by
    intro self
    have running : x.state = .running := by simpa [own] using told.1 self
    rw [running] at zombie
    cases zombie
  have kid' : np ∈ ((l.acquired (.proc np)).learn np x).fam.kids := by
    simp only [Gh.learn_fam, Gh.acquired_me, Gh.acquired_held, proc, held, Gh.locked_held, Gh.locked_me,
      Gh.acquired_fam, Gh.locked_fam, Fam.learn]
    split <;> simp [kid]
  refine Does.then (does_req (.freeproc np) _ ⟨by simp, Or.inr ⟨child, by simp [held], kid', reaped,
    ⟨me, proc⟩, ⟨np, x.state, x.pid, x.xstate⟩, by simp [other], rfl, zombie⟩⟩ fun _ => rfl) fun _ => ?_
  refine Does.then (release_does (.proc np) (by simp) (by simp [held, off]) slot pick
    ⟨fun _ => ⟨own, by simpa [proc, held, Fam.learn] using fall⟩, nofun⟩) fun _ => ?_
  refine Does.then (release_does .wait (by simp [held]) (by simp [held, off]) slot pick
    (by simpa [Gh.Releases, proc, held, Fam.learn] using owe)) fun _ => ?_
  refine Does.then (does_req (.waited me x.pid x.xstate) _ ⟨proc, by simp [child, other]⟩ fun _ => rfl)
    fun _ => ?_
  refine Does.wp (does_req (.goto me .trapEnd) _ proc fun _ => rfl) fun _ => ⟨?_, rfl⟩
  constructor
  · constructor <;> simp [proc, own, slot, pick, chan, held]
  all_goals simp [held, off]

theorem waitFrom_wp {me : Fin n} {addr : Nat} {done : Set (Fin n)} {ps : List (Fin n)} {havekids : Bool}
    (h : l.Waiting me done) (rest : ∀ q, q ∉ ps → q ∈ done) :
    (waitFrom me addr ps havekids).wp (pre initproc) (post initproc) l (fun _ m => fin m) := by
  have failing : ∀ {l : Gh n κ} {done : Set (Fin n)}, l.Waiting me done →
      (waitFail me).wp (pre initproc) (post initproc) l (fun _ m => fin m) := fun h =>
    Prog.wp_mono (waitFail_wp h) fun _ m h => h.1.fin (by simp [h.2])
  induction ps generalizing l done havekids with
  | nil =>
    have all : ∀ q, q ∈ l.fam.calm := fun q => h.calm (rest q (by simp))
    refine wp_read fun x _ => ?_
    have still : (l.learn me x).Waiting me Set.univ := by
      obtain ⟨⟨proc, own, slot, pick, seen, chan, fall⟩, held, off, child, reaped, owe, calm⟩ := h
      constructor
      · constructor <;> simp [proc, own, slot, pick, seen, chan, held, fall, Fam.learn]
      all_goals simp [held, off, child, reaped, proc, owe, Fam.learn]
      split
      · exact Set.eq_univ_of_forall all
      · exact Set.eq_univ_of_forall fun q => Set.mem_insert_of_mem _ (all q)
    split
    · exact failing still
    · refine Does.then (sleep_does still.toPlain still.held still.off nofun (fun _ => still.owe)
        fun q e => ⟨(Chan.proc.inj e).symm, rfl, fun q => still.calm (Set.mem_univ q)⟩) fun _ => ?_
      refine Does.wp (does_req (.goto me (.waitLoop addr)) _ still.proc fun _ => rfl) fun _ => ?_
      obtain ⟨⟨proc, own, slot, pick, seen, chan, fall⟩, held, off, child, reaped, owe, calm⟩ := still
      have waiting : Gh.Waiting { (l.learn me x).slept .wait with pc := .waitLoop addr } me ∅ := by
        constructor
        · constructor <;> simp_all [Gh.slept, Fam.blank]
        all_goals simp_all [Gh.slept, Fam.blank]
      exact waiting.fin rfl
  | cons np ps ih =>
    refine wp_read fun x _ => ?_
    have keep : ∀ q, q ∉ ps → q ∈ insert np done := by
      intro q hq
      by_cases here : q = np
      · exact Set.mem_insert_iff.mpr (Or.inl here)
      · exact Set.mem_insert_of_mem _ (rest q (by simp [here, hq]))
    have learned : l.learn np x = { l with fam := l.fam.learn me np x False } := by
      simp [Gh.learn, h.proc, h.held, h.child]
    have still : (l.learn np x).Waiting me done := by
      obtain ⟨⟨proc, own, slot, pick, seen, chan, fall⟩, held, off, child, reaped, owe, calm⟩ := h
      rw [learned]
      refine ⟨⟨proc, own, slot, pick, seen, chan, fall⟩, held, off, child, reaped, owe, ?_⟩
      simp only [Fam.learn]
      split
      · exact calm
      · exact calm.trans (Set.subset_insert _ _)
    split
    · rename_i kid
      refine Does.then (acquire_does (.proc np) (by simp [h.held]) (by simp [h.held, h.off]) h.slot h.pick)
        fun _ => wp_read fun y told => ?_
      have known : np ∈ (l.learn np x).fam.kids := by
        rw [learned]
        simp [Fam.learn, kid]
      split
      · rename_i zombie
        have answer : ∀ ok : Bool, (if ok = true then do
            req (.freeproc np); release (.proc np); waitReturn me y.pid y.xstate
          else do release (.proc np); waitFail me : Code n Unit).wp (pre initproc) (post initproc)
            (((l.learn np x).acquired (.proc np)).learn np y) (fun _ m => fin m) := by
          intro ok
          cases ok with
          | true =>
            exact Prog.wp_mono (still.reap known told zombie) fun _ m h => h.1.fin (by simp [h.2])
          | false => exact Prog.wp_seq (still.look y) fun _ m h => failing h
        by_cases null : addr = 0
        · rw [if_pos null]
          exact answer true
        · rw [if_neg null]
          exact wp_succeeds answer
      · rename_i alive
        refine Prog.wp_seq (still.look y) fun _ m h => ?_
        rw [if_neg alive] at h
        exact ih h keep
    · rename_i other
      have passed : (l.learn np x).Waiting me (insert np done) := by
        obtain ⟨⟨proc, own, slot, pick, seen, chan, fall⟩, held, off, child, reaped, owe, calm⟩ := h
        rw [learned]
        refine ⟨⟨proc, own, slot, pick, seen, chan, fall⟩, held, off, child, reaped, owe, ?_⟩
        simpa [Fam.learn, other] using Set.insert_subset_insert calm
      exact ih passed keep

theorem wait_wp {me : Fin n} {addr : Nat} (h : l.Free me) :
    (wait me addr).wp (pre initproc) (post initproc) l (fun _ m => fin m) := by
  obtain ⟨⟨proc, own, slot, pick, seen, chan, fall⟩, held, off, child, reaped⟩ := h
  refine Does.then (acquire_does .wait (by simp [held]) (by simp [held]) slot pick) fun _ => ?_
  refine Does.wp (does_req (.goto me (.waitLoop addr)) _ proc fun _ => rfl) fun _ => ?_
  have waiting : Gh.Waiting { l.acquired .wait with pc := .waitLoop addr } me ∅ := by
    constructor
    · constructor <;> simp [proc, own, slot, pick, seen, chan, Fam.blank]
    all_goals simp [held, off, child, reaped, Fam.blank]
  exact waiting.fin rfl

/-! ## The scheduler -/

/-- The scheduler of a CPU between two processes. -/
structure Gh.Idle (l : Gh n κ) (c : κ) : Prop where
  cpu : l.me = .cpu c
  own : l.own = .run
  slot : l.slot = none
  pick : l.pick = none
  seen : l.seen = none
  chan : l.chan = none
  fall : ¬ l.fam.fall
  held : l.held = []
  off : l.off = 0
  child : l.child = none
  reaped : l.reaped = none

theorem schedule_wp {c : κ} (h : l.Idle c) (p : Fin n) :
    (schedule p).wp (pre initproc) (post initproc) l (fun _ m => m.Idle c) := by
  obtain ⟨cpu, own, slot, pick, seen, chan, fall, held, off, child, reaped⟩ := h
  have away : l.me ≠ .proc p := by
    rw [cpu]
    exact nofun
  refine Does.then (acquire_does (.proc p) (by simp [held]) (by simp [held]) slot pick)
    fun _ => wp_read fun x _ => ?_
  split
  · rename_i runnable
    refine Does.then (does_req (.setRunning p) _ ⟨⟨c, cpu⟩, by simp [held], by simp [off], slot,
      ⟨p, x.state, x.pid, x.xstate⟩, by simp [away], rfl, runnable⟩ fun _ => rfl) fun _ => ?_
    refine Does.then (does_req (.setCpuProc (some p)) _ ⟨⟨c, cpu⟩, by simp [held], by simp [off], rfl⟩
      fun _ => rfl) fun _ => ?_
    refine Does.then (does_req (.resume p) _ ⟨⟨c, cpu⟩, by simp [held], by simp [off], rfl, rfl, rfl⟩
      fun _ => rfl) fun _ => ?_
    refine Does.then (does_req (.setCpuProc none) _ ⟨⟨c, cpu⟩, rfl⟩ fun _ => rfl) fun _ => ?_
    refine Does.wp (release_does (.proc p) (by simp) (by simp [held]) rfl rfl
      ⟨fun self => absurd (cpu.symm.trans self) nofun, fun _ => by simp [child]⟩) fun _ => ?_
    constructor <;> simp [cpu, own, chan, fall, held, off, child, reaped]
  · refine Does.wp (release_does (.proc p) (by simp) (by simp [held]) slot pick
      ⟨fun self => absurd (cpu.symm.trans self) nofun, fun _ => by simp [child]⟩) fun _ => ?_
    constructor <;> simp [cpu, own, slot, pick, chan, fall, held, off, child, reaped]

theorem scheduler_wp {c : κ} (h : l.Idle c) :
    (scheduler : Code n Unit).wp (pre initproc) (post initproc) l (fun _ m => fin m) := by
  have loop : ∀ (ps : List (Fin n)) {l : Gh n κ}, l.Idle c →
      (forSlots schedule ps).wp (pre initproc) (post initproc) l (fun _ m => m.Idle c) := by
    intro ps
    induction ps with
    | nil => exact fun h => h
    | cons p ps ih => exact fun h => Prog.wp_seq (schedule_wp h p) fun _ m h => ih h
  refine Does.then (does_req .intrOn l h.off fun _ => rfl) fun _ => ?_
  refine Prog.wp_mono (loop _ h) fun _ m h => ?_
  obtain ⟨cpu, own, slot, pick, seen, chan, fall, held, off, child, reaped⟩ := h
  refine ⟨own, child, reaped, slot, pick, chan, seen, fall, ?_⟩
  rw [cpu]
  exact ⟨held, off⟩

/-! ## Traps from user space -/

omit [DecidableEq κ] in
theorem Gh.Free.goto {me : Fin n} (h : l.Free me) (pc : Label) : Gh.Free { l with pc := pc } me := by
  obtain ⟨⟨proc, own, slot, pick, seen, chan, fall⟩, held, off, child, reaped⟩ := h
  exact ⟨⟨proc, own, slot, pick, seen, chan, fall⟩, held, off, child, reaped⟩

theorem usertrapret_wp {me : Fin n} (h : l.Free me) :
    (usertrapret me).wp (pre initproc) (post initproc) l (fun _ m => fin m) := by
  refine Does.then (does_req .intrOff l trivial fun _ => rfl) fun _ => ?_
  refine Does.then (does_req .intrOn l h.off fun _ => rfl) fun _ => ?_
  exact Does.wp (does_req (.goto me .user) { l with pc := .user } h.proc fun _ => rfl)
    fun _ => (h.goto .user).fin nofun

omit [DecidableEq κ] in
theorem Gh.Free.interruptible {me : Fin n} (h : l.Free me) : l.Interruptible :=
  ⟨h.held, h.off, h.slot, h.pick, h.seen, fun _ _ => ⟨h.own, h.fall⟩⟩

omit [DecidableEq κ] in
theorem Gh.Free.hosts {me : Fin n} (h : l.Free me) (may : Leave) : l.Hosts (some me) may :=
  ⟨h.slot, h.pick, by simp [h.held], by simp [h.held], by simp [h.held],
    fun _ => ⟨h.held, h.off, me, rfl, h.toPlain⟩⟩

theorem forkret_wp {me : Fin n} {first : Client} (ok : first.Disciplined .sleep) :
    (forkret me first).wp (pre initproc) (post initproc) (Gh.fresh me : Gh n κ) (fun _ m => fin m) := by
  refine Does.then (release_does (.proc me) (by simp [Gh.fresh]) (by simp [Gh.fresh]) rfl rfl
    ⟨fun _ => ⟨rfl, id⟩, fun away => absurd rfl away⟩) fun _ => ?_
  have free : ((Gh.fresh me : Gh n κ).released (.proc me)).Free me := by
    constructor
    · constructor <;> simp [Gh.fresh, Fam.blank]
    all_goals simp [Gh.fresh]
  exact Does.then (client_does (free.hosts .sleep) ok) fun _ => usertrapret_wp free

theorem trapEnd_wp {me : Fin n} {close : Client} (h : l.Free me) (ok : close.Disciplined .sleep) :
    (trapEnd initproc me close).wp (pre initproc) (post initproc) l (fun _ m => fin m) := by
  refine wp_read fun x _ => ?_
  rw [Gh.learn_self h.proc (by simp [h.held])]
  split
  · exact exit_wp h ok
  · exact usertrapret_wp h

/-- One step of `sys_getprocinfo`. -/
theorem wp_info {me : Fin n} {i : Info n} {f : i.Ans → Code n β} {Q : β → Gh n κ → Prop} (h : l.Free me)
    (rest : ∀ r m, (l.adopted = true → i.NotNull r) → m.Free me → m.adopted = i.adopts l.adopted r →
      (f r).wp (pre initproc) (post initproc) m Q) :
    (req (.info me i) >>= f).wp (pre initproc) (post initproc) l Q := by
  refine wp_req (a := .info me i) h.proc fun r told => rest r _ (told h.proc h.own) ?_ rfl
  obtain ⟨⟨proc, own, slot, pick, seen, chan, fall⟩, held, off, child, reaped⟩ := h
  exact ⟨⟨proc, own, slot, pick, seen, chan, fall⟩, held, off, child, reaped⟩

/-- A pointer to the parent that was not null is not null when it is followed. -/
theorem parentPid_wp {me : Fin n} (h : l.Free me) :
    (parentPid me).wp (pre initproc) (post initproc) l (fun _ m => m.Free me) := by
  refine wp_info (i := .parent) h fun r m _ free known => ?_
  cases r with
  | none => exact free
  | some q =>
    have adopted : m.adopted = true := known.trans (Bool.or_true _)
    refine wp_info (i := .parent) free fun r k notNull free _ => ?_
    cases r with
    | none => exact absurd rfl (notNull adopted)
    | some q => exact wp_info (i := .ppid q) (f := Prog.ret) free fun _ _ _ free _ => free

theorem sysGetprocinfo_wp {me : Fin n} (h : l.Free me) :
    (sysGetprocinfo me).wp (pre initproc) (post initproc) l (fun _ m => m.Free me) := by
  refine wp_info (i := .pid) h fun pid m _ free _ => ?_
  refine Prog.wp_seq (parentPid_wp free) fun ppid m free => wp_read fun p _ => ?_
  rw [Gh.learn_self free.proc (by simp [free.held])]
  refine wp_succeeds fun copied => ?_
  cases copied with
  | true => exact wp_info (i := .told pid ppid p.state) (f := Prog.ret) free fun _ _ _ free _ => free
  | false => exact free

theorem Syscall.code_wp {me : Fin n} {call : Syscall} (h : l.Free me) (ok : call.Ok) :
    (call.code initproc me).wp (pre initproc) (post initproc) l (fun _ m => fin m) := by
  have back : ∀ {m : Gh n κ}, m.Free me →
      (req (.goto me .trapEnd)).wp (pre initproc) (post initproc) m (fun _ m => fin m) := fun {m} free =>
    Does.wp (does_req (.goto me .trapEnd) { m with pc := .trapEnd } free.proc fun _ => rfl)
      fun _ => (free.goto .trapEnd).fin nofun
  cases call with
  | fork dup => exact Prog.wp_seq (fork_wp h ok) fun _ m free => back free
  | exit close status => exact exit_wp h ok
  | wait addr => exact wait_wp h
  | kill pid => exact Does.then (killFrom_does (by simp [h.held]) _) fun _ => back h
  | setpriority pid priority =>
    have sets : Does initproc (sysSetpriority pid priority) l l := by
      rw [sysSetpriority]
      split
      · exact does_pure _
      · exact setpriorityFrom_does (by simp [h.held]) _
    exact sets.then fun _ => back h
  | getprocinfo => exact Prog.wp_seq (sysGetprocinfo_wp h) fun _ m free => back free
  | other c => exact Does.then (client_does (h.hosts .sleep) ok) fun _ => back h

theorem usertrap_wp {me : Fin n} {trap : Trap} (h : l.Free me) (ok : trap.Ok) :
    (usertrap initproc me trap).wp (pre initproc) (post initproc) l (fun _ m => fin m) := by
  have self : ∀ x, l.learn me x = l := Gh.learn_self h.proc (by simp [h.held])
  have off : Does initproc (req .intrOff) l l := does_req .intrOff l trivial fun _ => rfl
  cases trap with
  | syscall call close =>
    refine off.then fun _ => wp_read fun x _ => ?_
    rw [self]
    split
    · exact exit_wp h ok.2
    · exact Does.then (does_req .intrOn l h.off fun _ => rfl) fun _ => Syscall.code_wp h ok.1
  | device handler close =>
    exact off.then fun _ => Does.then (client_does (h.hosts .wakeup) ok.1) fun _ => trapEnd_wp h ok.2
  | timer handler close =>
    refine off.then fun _ => Does.then (client_does (h.hosts .wakeup) ok.1) fun _ => wp_read fun x _ => ?_
    rw [self]
    split
    · exact exit_wp h ok.2
    · exact Does.then (yield_does h.interruptible h.proc) fun _ => usertrapret_wp h
  | fault close =>
    exact off.then fun _ => Does.then (does_req (.setKilled me) l ⟨h.proc, h.own⟩ fun _ => rfl)
      fun _ => trapEnd_wp h ok

end Xv6.Process
