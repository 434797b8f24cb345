import Mathlib
import Xv6.Interleave.Run
import Xv6.Log.Ghost

/-!
# The transaction protocol

The log layer with the processes that sleep in `begin_op` (`sleep` and `wakeup` of
`kernel/proc.c`). A process that is not admitted releases `log.lock` while it holds its own
`p->lock`, and marks itself `SLEEPING` later; `wakeup` takes the `p->lock` of every process,
so it cannot pass one that is on the way to sleep.

`ops` and `committer` are history: how many operations each process has between `begin_op`
and `end_op`, and who found itself to be the last one out and has not finished its commit.
-/

namespace Xv6.Log

open Interleave

/-- A process in `begin_op`: it runs; it is in `sleep` and has released `log.lock`; it is
`SLEEPING` on `&log`. -/
inductive Rest where
  | awake
  | falling
  | asleep
deriving DecidableEq

structure PSt (ι T : Type) where
  base : St ι T
  rest : ι → Rest
  ops : ι → Nat
  committer : Option ι

section Machine

variable {ι X T : Type} {RX : X → Type} [DecidableEq ι]

/-- `wakeup(&log)` -/
def PSt.wakeup (s : PSt ι T) (j : ι) : Rest := if s.rest j = .asleep then .awake else s.rest j

/-- The actions that call `wakeup` need every `p->lock`. -/
def PSt.guard (s : PSt ι T) : (a : Act X) → Res RX a → Prop
  | .endOpDec, r => r = .ok false → ∀ j, s.rest j ≠ .falling
  | .endOpDone, _ => ∀ j, s.rest j ≠ .falling
  | _, _ => True

def PSt.next (s : PSt ι T) (i : ι) (base : St ι T) : (a : Act X) → Res RX a → PSt ι T
  | .beginOp, _ => { s with base := base, ops := Function.update s.ops i (s.ops i + 1) }
  | .endOpDec, r =>
    match r with
    | .ok true => { s with base := base, ops := Function.update s.ops i (s.ops i - 1)
                           committer := some i }
    | .ok false => { s with base := base, ops := Function.update s.ops i (s.ops i - 1)
                            rest := s.wakeup }
    | .error _ => { s with base := base, ops := Function.update s.ops i (s.ops i - 1) }
  | .endOpDone, _ => { s with base := base, rest := s.wakeup, committer := none }
  | _, _ => { s with base := base }

variable (execX : ι → (x : X) → T → RX x → T → Prop)

def pexec (i : ι) (a : Act X) (s : PSt ι T) (r : Res RX a) (s' : PSt ι T) : Prop :=
  s.rest i = .awake ∧ s.guard a r ∧
    ∃ base, exec execX i a s.base r base ∧ s' = s.next i base a r

/-- After a power failure nobody sleeps. -/
def PSt.boot (base : St ι T) : PSt ι T := ⟨base, fun _ => .awake, fun _ => 0, none⟩

inductive PEnv (first : ι) : PSt ι T → (ι → Code RX Unit) → List Ev → PSt ι T →
    (ι → Code RX Unit) → Prop where
  | recycle {s : PSt ι T} {th : ι → Code RX Unit} {b : Nat}
      (free : ∀ h j, s.base.hold h ≠ some (j, b)) (unpinned : s.base.pin b = 0) :
      PEnv first s th []
        { s with base := { s.base with cache := Function.update s.base.cache b (s.base.disk b) } } th
  | crash {s : PSt ι T} {th : ι → Code RX Unit} {t : T} :
      PEnv first s th [.crash]
        (PSt.boot (reboot s.base.log.start s.base.log.size s.base.disk t)) (bootPool first)
  /-- `begin_op` does not admit the operation and calls `sleep`. -/
  | sleep {s : PSt ι T} {th : ι → Code RX Unit} {i : ι} {k : Unit → Code RX Unit}
      (code : th i = .act .beginOp k) (awake : s.rest i = .awake)
      (full : s.base.log.admits = false) :
      PEnv first s th [] { s with rest := Function.update s.rest i .falling } th
  /-- `p->state = SLEEPING` -/
  | slept {s : PSt ι T} {th : ι → Code RX Unit} {i : ι} (falling : s.rest i = .falling) :
      PEnv first s th [] { s with rest := Function.update s.rest i .asleep } th
  /-- `kill` wakes a process up too. -/
  | kill {s : PSt ι T} {th : ι → Code RX Unit} {i : ι} (asleep : s.rest i = .asleep) :
      PEnv first s th [] { s with rest := Function.update s.rest i .awake } th

def psys (first : ι) (calls : ι → Client RX → Prop) : Sys ι (Act X) (Res RX) (PSt ι T) Ev where
  exec := pexec execX
  obs := fun _ a s => obs a s.base
  env := PEnv first
  calls := fun i s p => s.base.up = true ∧ ∃ c, calls i c ∧ p = c.interp impl

omit [DecidableEq ι] in
theorem PSt.next_base (s : PSt ι T) [DecidableEq ι] (i : ι) (base : St ι T) (a : Act X)
    (r : Res RX a) : (s.next i base a r).base = base := by
  cases a with
  | endOpDec =>
    match r with
    | .ok true | .ok false | .error _ => rfl
  | _ => rfl

/-- Sleeping is invisible to the log layer. -/
theorem psys_refines_sys {first : ι} {calls : ι → Client RX → Prop} {s₀ s : PSt ι T}
    {th₀ th : ι → Code RX Unit} {tr : List Ev} (run : (psys execX first calls).Reach s₀ th₀ tr s th) :
    (sys execX first calls).Reach s₀.base th₀ tr s.base th := by
  induction run with
  | init => exact .init
  | step before next ih =>
    cases next with
    | run code step =>
      obtain ⟨-, -, base, hstep, rfl⟩ := step
      rw [PSt.next_base]
      exact ih.step (.run code hstep)
    | call idle accepted => exact ih.step (.call idle accepted)
    | env moves =>
      cases moves with
      | recycle free unpinned => exact ih.step (.env (.recycle free unpinned))
      | crash => exact ih.step (.env .crash)
      | sleep | slept | kill => simpa using ih

end Machine

/-! ## What clients do -/

section Discipline

variable {X : Type} {RX : X → Type}

/-- `log_write` is called inside an operation, and only log.c writes to the disk. `n` counts
the operations the process is in. -/
def opPre : OpAct X → Nat → Prop
  | .endOp, n | .logWrite _, n => 0 < n
  | .bwrite _, _ => False
  | _, _ => True

def opPost : (a : OpAct X) → Nat → OpRes RX a → Nat → Prop
  | .beginOp, n, _, n' => n' = n + 1
  | .endOp, n, _, n' => n' = n - 1
  | _, n, _, n' => n' = n

def Bracketed (c : Client RX) : Prop := c.wp opPre opPost 0 (fun _ n => n = 0)

end Discipline

/-! ## Roles -/

/-- What a process is to the log: nothing before recovery is over, a client inside `n`
operations, or the owner of `log.lh`. -/
inductive Role where
  | off
  | client (n : Nat)
  | commits (tx : List Nat)
  | recovers (tx : List Nat)

def Role.ops : Role → Nat
  | .client n => n
  | _ => 0

/-- The blocks a role knows to be in `log.lh`. -/
def Role.owns : Role → Option (List Nat)
  | .commits tx | .recovers tx => some tx
  | _ => none

def Role.setLh (lh : List Nat) : Role → Role
  | .commits _ => .commits lh
  | .recovers _ => .recovers lh
  | l => l

section Rules

variable {X : Type} {RX : X → Type}

def rolePre : Act X → Role → Prop
  | .beginOp, l => ∃ n, l = .client n
  | .endOpDec, l | .logWrite _, l => ∃ n, l = .client (n + 1)
  | .endOpDone, l => l = .commits []
  | .setLh lh, l => (∃ tx, l = .recovers tx) ∨ lh = [] ∧ ∃ tx, l = .commits tx
  | .ready, l => l = .recovers []
  | .bwrite _, l => l.owns ≠ none
  | _, l => l ≠ .off

def rolePost : (a : Act X) → Role → Res RX a → Role → Prop
  | .beginOp, l, _, l' => l' = .client (l.ops + 1)
  | .endOpDec, l, r, l' =>
    match r with
    | .error _ => False
    | .ok false => l' = .client (l.ops - 1)
    | .ok true => l.ops = 1 ∧ ∃ tx, l' = .commits tx
  | .endOpDone, _, _, l' | .ready, _, _, l' => l' = .client 0
  | .setLh lh, l, _, l' => l' = l.setLh lh
  | .getLog, l, r, l' => l' = l ∧ ∀ tx, l.owns = some tx → r.lh = tx
  | _, l, _, l' => l' = l

/-- Code that takes a process from one role to another. -/
def Plays {α : Type} (l : Role) (p : Code RX α) (l' : Role) : Prop :=
  p.wp rolePre rolePost l (fun _ l'' => l'' = l')

end Rules

section Code

variable {X : Type} {RX : X → Type} {α β : Type} {l l' l'' : Role}

theorem Plays.bind {p : Code RX α} {f : α → Code RX β} (first : Plays l p l')
    (second : ∀ x, Plays l' (f x) l'') : Plays l (p >>= f) l'' := by
  refine Prog.wp_seq first ?_
  rintro x m rfl
  exact second x

theorem plays_pure (x : α) : Plays l (pure x : Code RX α) l := rfl

/-- An action that every process may perform and that changes no role. -/
theorem plays_req (a : Act X) (pre : rolePre a l)
    (post : ∀ r l', @rolePost X RX a l r l' → l' = l) : Plays l (req a : Code RX (Res RX a)) l :=
  ⟨pre, fun r l' h => post r l' h⟩

theorem plays_panic {msg : String} (on : l ≠ .off) : Plays l (panic msg : Code RX α) l' :=
  ⟨on, fun e => Empty.elim e⟩

theorem plays_bread (on : l ≠ .off) (b : Nat) : Plays l (bread b : Code RX Handle) l := by
  refine (plays_req (.bread b) on fun _ _ h => h).bind fun r => ?_
  match r with
  | some h => exact plays_pure h
  | none => exact plays_panic on

theorem plays_getLog {tx : List Nat} (on : l.owns = some tx) {k : LogVar → Code RX α}
    (next : ∀ log, log.lh = tx → Plays l (k log) l') : Plays l (getLog >>= k) l' := by
  refine ⟨?_, ?_⟩
  · rintro rfl
    cases on
  · rintro log m ⟨rfl, known⟩
    exact next log (known tx on)

variable {tx : List Nat}

theorem on_of_owns (own : l.owns = some tx) : l ≠ .off := by
  rintro rfl
  cases own

theorem plays_bwrite (own : l.owns = some tx) (h : Handle) : Plays l (bwrite h : Code RX Unit) l :=
  plays_req (.bwrite h) (by simp [rolePre, own]) fun _ _ h => h

theorem writeLogFrom_plays (own : l.owns = some tx) (k : Nat) :
    Plays l (writeLogFrom k : Code RX Unit) l := by
  have on := on_of_owns own
  induction k with
  | zero => exact plays_pure ()
  | succ k ih =>
    refine plays_getLog own fun log _ => ?_
    dsimp only
    split
    · exact plays_pure ()
    · exact (plays_bread on _).bind fun toBuf => (plays_bread on _).bind fun fromBuf =>
        (plays_req (.getData fromBuf) on fun _ _ h => h).bind fun d =>
        (plays_req (.setData toBuf d) on fun _ _ h => h).bind fun _ =>
        (plays_bwrite own toBuf).bind fun _ =>
        (plays_req (.brelse fromBuf) on fun _ _ h => h).bind fun _ =>
        (plays_req (.brelse toBuf) on fun _ _ h => h).bind fun _ => ih

theorem installTransFrom_plays (own : l.owns = some tx) (recovering : Bool) (k : Nat) :
    Plays l (installTransFrom recovering k : Code RX Unit) l := by
  have on := on_of_owns own
  induction k with
  | zero => exact plays_pure ()
  | succ k ih =>
    refine plays_getLog own fun log _ => ?_
    dsimp only
    split
    · exact plays_pure ()
    · refine (plays_bread on _).bind fun lbuf => (plays_bread on _).bind fun dbuf =>
        (plays_req (.getData lbuf) on fun _ _ h => h).bind fun d =>
        (plays_req (.setData dbuf d) on fun _ _ h => h).bind fun _ =>
        (plays_bwrite own dbuf).bind fun _ => ?_
      have rest : Plays l (do brelse lbuf; brelse dbuf; installTransFrom recovering k :
          Code RX Unit) l :=
        (plays_req (.brelse lbuf) on fun _ _ h => h).bind fun _ =>
          (plays_req (.brelse dbuf) on fun _ _ h => h).bind fun _ => ih
      cases recovering with
      | true => exact rest
      | false => exact (plays_req (.bunpin dbuf) on fun _ _ h => h).bind fun _ => rest

theorem writeHead_plays (own : l.owns = some tx) : Plays l (writeHead : Code RX Unit) l := by
  have on := on_of_owns own
  exact plays_getLog own fun log _ => (plays_bread on _).bind fun buf =>
    (plays_req (.getData buf) on fun _ _ h => h).bind fun d =>
    (plays_req (.setData buf _) on fun _ _ h => h).bind fun _ =>
    (plays_bwrite own buf).bind fun _ => plays_req (.brelse buf) on fun _ _ h => h

theorem setLh_plays (lh : List Nat) (pre : rolePre (.setLh lh : Act X) l) :
    Plays l (setLh lh : Code RX Unit) (l.setLh lh) :=
  ⟨pre, fun _ _ h => h⟩

/-- After a commit the log is empty. -/
theorem commit_plays : Plays (.commits tx) (commit : Code RX Unit) (.commits []) := by
  refine plays_getLog rfl fun log hlh => ?_
  rw [hlh]
  split
  · exact (writeLogFrom_plays rfl _).bind fun _ => (writeHead_plays rfl).bind fun _ =>
      (installTransFrom_plays rfl _ _).bind fun _ =>
      (setLh_plays [] (Or.inr ⟨rfl, tx, rfl⟩)).bind fun _ => writeHead_plays rfl
  · rename_i empty
    obtain rfl : tx = [] := by simpa using empty
    exact plays_pure ()

theorem endOp_plays (n : Nat) : Plays (.client (n + 1)) (endOp : Code RX Unit) (.client n) := by
  refine ⟨⟨n, rfl⟩, fun r l' h => ?_⟩
  match r, h with
  | .ok false, h =>
    obtain rfl : l' = .client n := h
    exact plays_pure ()
  | .ok true, ⟨hn, tx, htx⟩ =>
    obtain rfl : n = 0 := Nat.succ.inj hn
    obtain rfl : l' = .commits tx := htx
    exact commit_plays.bind fun _ => ⟨rfl, fun _ _ h => h⟩

theorem boot_plays : Plays (.recovers tx) (boot : Code RX Unit) (.client 0) := by
  have read : (readHead : Code RX Unit).wp rolePre rolePost (.recovers tx)
      (fun _ l' => ∃ tx', l' = .recovers tx') := by
    have on : Role.recovers tx ≠ .off := nofun
    refine Prog.wp_seq (plays_req .getLog on fun _ _ h => h.1) ?_
    rintro log m rfl
    refine Prog.wp_seq (plays_bread on _) ?_
    rintro buf m rfl
    refine Prog.wp_seq (plays_req (.getData buf) on fun _ _ h => h) ?_
    rintro d m rfl
    refine Prog.wp_seq (setLh_plays _ (Or.inl ⟨tx, rfl⟩)) ?_
    rintro - m rfl
    exact ⟨nofun, fun _ m h => ⟨_, h⟩⟩
  rw [boot, recoverFromLog, Prog.bind_assoc]
  refine Prog.wp_seq read ?_
  rintro - m ⟨tx', rfl⟩
  rw [Prog.bind_assoc]
  exact (installTransFrom_plays rfl _ _).bind fun _ =>
    (setLh_plays [] (Or.inl ⟨tx', rfl⟩)).bind fun _ => (writeHead_plays rfl).bind fun _ =>
    ⟨rfl, fun _ _ h => h⟩

theorem impl_plays (a : OpAct X) {n : Nat} (h : opPre a n) :
    (impl a : Code RX (OpRes RX a)).wp rolePre rolePost (.client n) (fun r l =>
      ∃ n', l = .client n' ∧ opPost a n r n') := by
  have on : Role.client n ≠ .off := nofun
  cases a with
  | bread b =>
    refine Prog.wp_mono (plays_bread on b) ?_
    rintro r l rfl
    exact ⟨n, rfl, rfl⟩
  | logWrite h' =>
    obtain ⟨n, rfl⟩ := Nat.exists_eq_add_one.mpr h
    refine ⟨⟨n, rfl⟩, fun r l hr => ?_⟩
    obtain rfl : l = .client (n + 1) := hr
    match r with
    | .ok () => exact ⟨n + 1, rfl, rfl⟩
    | .error msg => exact ⟨on, fun e => Empty.elim e⟩
  | bwrite h' => exact False.elim h
  | beginOp =>
    refine ⟨⟨n, rfl⟩, ?_⟩
    rintro r l rfl
    exact ⟨n + 1, rfl, rfl⟩
  | endOp =>
    obtain ⟨n, rfl⟩ := Nat.exists_eq_add_one.mpr h
    refine Prog.wp_mono (endOp_plays n) ?_
    rintro r l rfl
    exact ⟨n, rfl, rfl⟩
  | panic msg => exact ⟨on, fun e => Empty.elim e⟩
  | getData h' | setData h' d | brelse h' | aux x =>
    refine ⟨on, ?_⟩
    rintro r l rfl
    exact ⟨n, rfl, rfl⟩

theorem client_plays {c : Prog (OpAct X) (OpRes RX) α} {n : Nat} {P : α → Nat → Prop}
    (h : c.wp opPre opPost n P) :
    (c.interp impl : Code RX α).wp rolePre rolePost (.client n)
      (fun x l => ∃ n', l = .client n' ∧ P x n') := by
  induction c generalizing n with
  | ret x => exact ⟨n, rfl, h⟩
  | act a k ih =>
    refine Prog.wp_seq (impl_plays a h.1) ?_
    rintro r l ⟨n', rfl, hpost⟩
    exact ih r (h.2 r n' hpost)

end Code

/-! ## The invariant -/

section Invariant

variable {ι X T : Type} {RX : X → Type} [Fintype ι]

/-- Why a process may sleep: a commit is running, or the reservations of the operations
under way leave no room. -/
def LogVar.Busy (log : LogVar) : Prop :=
  log.committing = true ∨
    (LOGSIZE : Int) < log.lh.length + (log.outstanding + 1) * MAXOPBLOCKS ∧ 1 ≤ log.outstanding

structure ProtoInv (s : PSt ι T) (L : ι → Role) : Prop where
  ops : ∀ i, s.ops i = (L i).ops
  committer : ∀ i, s.committer = some i ↔ ∃ tx, L i = .commits tx
  count : s.base.log.outstanding = ∑ i, (s.ops i : Int)
  committing : s.base.log.committing = s.committer.isSome
  one : ∀ i j tx tx', (L i).owns = some tx → (L j).owns = some tx' → i = j
  owner : ∀ i tx, (L i).owns = some tx → s.base.log.lh = tx ∧ ∀ j, s.ops j = 0
  down : s.base.up = false → ∀ i, L i = .off ∨ ∃ tx, L i = .recovers tx
  up : s.base.up = true → ∀ i tx, L i ≠ .recovers tx
  nodup : s.base.up = true → s.base.log.lh.Nodup
  empty : s.base.up = true → s.committer = none → (∀ i, s.ops i = 0) → s.base.log.lh = []
  sleeps : ∀ i, s.rest i ≠ .awake → s.base.log.Busy ∧ ∃ n, L i = .client n

variable {s : PSt ι T} {L : ι → Role} {i : ι}

theorem ProtoInv.out_zero (I : ProtoInv s L) : s.base.log.outstanding = 0 ↔ ∀ j, s.ops j = 0 := by
  rw [I.count, Finset.sum_eq_zero_iff_of_nonneg fun j _ => by omega]
  simp

theorem ProtoInv.out_pos (I : ProtoInv s L) (h : s.ops i ≠ 0) : 1 ≤ s.base.log.outstanding := by
  have nonneg : 0 ≤ s.base.log.outstanding := by
    rw [I.count]
    exact Finset.sum_nonneg fun j _ => by omega
  have : s.base.log.outstanding ≠ 0 := fun zero => h (I.out_zero.mp zero i)
  omega

theorem ProtoInv.is_up (I : ProtoInv s L)
    (h : (∃ n, L i = .client n) ∨ ∃ tx, L i = .commits tx) : s.base.up = true := by
  by_contra hup
  rcases I.down (by simpa using hup) i with e | ⟨tx, e⟩ <;> simp [e] at h

/-- Nobody owns the log while a process is in an operation. -/
theorem ProtoInv.no_owner (I : ProtoInv s L) (h : s.ops i ≠ 0) (j : ι) : (L j).owns = none := by
  cases hj : (L j).owns with
  | none => rfl
  | some tx => exact absurd ((I.owner j tx hj).2 i) h

theorem ProtoInv.no_committer (I : ProtoInv s L) (h : ∀ j, (L j).owns = none) :
    s.committer = none := by
  cases hc : s.committer with
  | none => rfl
  | some j =>
    obtain ⟨tx, hj⟩ := (I.committer j).mp hc
    have := h j
    rw [hj] at this
    cases this

/-- Nobody owns the log when no commit runs and recovery is over. -/
theorem ProtoInv.quiet (I : ProtoInv s L) (up : s.base.up = true) (idle : s.committer = none) (j : ι) :
    (L j).owns = none := by
  cases hj : L j with
  | commits tx =>
    have := (I.committer j).mpr ⟨tx, hj⟩
    rw [idle] at this
    cases this
  | recovers tx => exact absurd hj (I.up up j tx)
  | _ => rfl

/-- The invariant while nobody owns the log. -/
theorem ProtoInv.of_quiet (up : s.base.up = true) (owns : ∀ j, (L j).owns = none)
    (idle : s.committer = none) (com : s.base.log.committing = false)
    (ops : ∀ j, s.ops j = (L j).ops) (count : s.base.log.outstanding = ∑ i, (s.ops i : Int))
    (nodup : s.base.log.lh.Nodup) (empty : (∀ j, s.ops j = 0) → s.base.log.lh = [])
    (sleeps : ∀ j, s.rest j ≠ .awake → s.base.log.Busy ∧ ∃ n, L j = .client n) : ProtoInv s L := by
  refine ⟨ops, fun j => ?_, count, by rw [com, idle]; rfl, ?_, ?_, ?_, ?_, fun _ => nodup,
    fun _ _ => empty, sleeps⟩
  · rw [idle]
    refine ⟨nofun, ?_⟩
    rintro ⟨tx, h⟩
    have := owns j
    rw [h] at this
    cases this
  · intro j k tx tx' hj
    rw [owns j] at hj
    cases hj
  · intro j tx hj
    rw [owns j] at hj
    cases hj
  · intro h
    rw [up] at h
    cases h
  · intro _ j tx h
    have := owns j
    rw [h] at this
    cases this

/-- The invariant while process `i` commits. -/
theorem ProtoInv.of_commits {tx : List Nat} (up : s.base.up = true) (hi : L i = .commits tx)
    (others : ∀ j, j ≠ i → (L j).owns = none) (committer : s.committer = some i)
    (com : s.base.log.committing = true) (ops : ∀ j, s.ops j = (L j).ops)
    (nobody : ∀ j, s.ops j = 0) (out : s.base.log.outstanding = 0)
    (lh : s.base.log.lh = tx) (nodup : tx.Nodup)
    (sleeps : ∀ j, s.rest j ≠ .awake → ∃ n, L j = .client n) : ProtoInv s L := by
  have owns : ∀ j tx', (L j).owns = some tx' → j = i ∧ tx' = tx := by
    intro j tx' hj
    by_cases e : j = i
    · subst e
      rw [hi] at hj
      exact ⟨rfl, (Option.some.inj hj).symm⟩
    · rw [others j e] at hj
      cases hj
  refine ⟨ops, fun j => ?_, ?_, by rw [com, committer]; rfl, ?_, ?_, ?_, ?_, fun _ => lh ▸ nodup, ?_,
    fun j hj => ⟨Or.inl com, sleeps j hj⟩⟩
  · rw [committer]
    refine ⟨?_, ?_⟩
    · rintro h
      obtain rfl := Option.some.inj h
      exact ⟨tx, hi⟩
    · rintro ⟨tx', h⟩
      rw [(owns j tx' (by rw [h]; rfl)).1]
  · rw [out]
    exact (Finset.sum_eq_zero fun j _ => by simp [nobody j]).symm
  · intro j k tx₁ tx₂ hj hk
    rw [(owns j tx₁ hj).1, (owns k tx₂ hk).1]
  · intro j tx' hj
    rw [(owns j tx' hj).2]
    exact ⟨lh, nobody⟩
  · intro h
    rw [up] at h
    cases h
  · intro _ j tx' h
    obtain ⟨rfl, -⟩ := owns j tx' (by rw [h]; rfl)
    rw [hi] at h
    cases h
  · intro _ h
    rw [committer] at h
    cases h

/-- The invariant while process `i` recovers the log. -/
theorem ProtoInv.of_recovers {tx : List Nat} (up : s.base.up = false) (hi : L i = .recovers tx)
    (others : ∀ j, j ≠ i → L j = .off) (committer : s.committer = none)
    (com : s.base.log.committing = false) (nobody : ∀ j, s.ops j = 0)
    (out : s.base.log.outstanding = 0) (lh : s.base.log.lh = tx)
    (awake : ∀ j, s.rest j = .awake) : ProtoInv s L := by
  have roles : ∀ j, j = i ∨ L j = .off := by
    intro j
    by_cases e : j = i
    · exact Or.inl e
    · exact Or.inr (others j e)
  have owns : ∀ j tx', (L j).owns = some tx' → j = i ∧ tx' = tx := by
    intro j tx' hj
    rcases roles j with rfl | off
    · rw [hi] at hj
      exact ⟨rfl, (Option.some.inj hj).symm⟩
    · rw [off] at hj
      cases hj
  refine ⟨fun j => ?_, fun j => ?_, ?_, by rw [com, committer]; rfl, ?_, ?_, ?_, ?_, ?_, ?_,
    fun j hj => absurd (awake j) hj⟩
  · rcases roles j with rfl | off
    · simp [nobody, hi, Role.ops]
    · simp [nobody, off, Role.ops]
  · rcases roles j with rfl | off
    · simp [committer, hi]
    · simp [committer, off]
  · rw [out]
    exact (Finset.sum_eq_zero fun j _ => by simp [nobody j]).symm
  · intro j k tx₁ tx₂ hj hk
    rw [(owns j tx₁ hj).1, (owns k tx₂ hk).1]
  · intro j tx' hj
    rw [(owns j tx' hj).2]
    exact ⟨lh, nobody⟩
  · intro _ j
    rcases roles j with rfl | off
    · exact Or.inr ⟨tx, hi⟩
    · exact Or.inl off
  all_goals
    intro h
    rw [up] at h
    cases h

/-- While one process owns the log the others do not. -/
theorem ProtoInv.others (I : ProtoInv s L) {tx : List Nat} (own : (L i).owns = some tx) (j : ι)
    (e : j ≠ i) : (L j).owns = none := by
  cases hj : (L j).owns with
  | none => rfl
  | some tx' => exact absurd (I.one j i tx' tx hj own) e

/-- While one process recovers the log there is no other. -/
theorem ProtoInv.recovering (I : ProtoInv s L) {tx : List Nat} (hi : L i = .recovers tx) :
    s.base.up = false ∧ s.committer = none ∧ ∀ j, j ≠ i → L j = .off := by
  have down : s.base.up = false := by
    rw [← Bool.not_eq_true]
    exact fun up => I.up up i tx hi
  refine ⟨down, ?_, fun j e => ?_⟩
  · cases hc : s.committer with
    | none => rfl
    | some j =>
      obtain ⟨tx', hj⟩ := (I.committer j).mp hc
      have := I.is_up (Or.inr ⟨tx', hj⟩)
      rw [down] at this
      cases this
  · rcases I.down down j with off | ⟨tx', hj⟩
    · exact off
    · exact absurd (I.one j i tx' tx (by rw [hj]; rfl) (by rw [hi]; rfl)) e

/-- Before recovery is over nobody sleeps. -/
theorem ProtoInv.down_awake (I : ProtoInv s L) (down : s.base.up = false) (j : ι) :
    s.rest j = .awake := by
  by_contra hj
  have := I.is_up (Or.inl (I.sleeps j hj).2)
  rw [down] at this
  cases this

omit [Fintype ι] in
theorem wakeup_awake (h : ∀ j, s.rest j ≠ .falling) (j : ι) : s.wakeup j = .awake := by
  have := h j
  rw [PSt.wakeup]
  cases hj : s.rest j <;> simp_all

/-- A step that changes neither `log` nor who is who. -/
theorem ProtoInv.same (I : ProtoInv s L) {base : St ι T} (log : base.log = s.base.log)
    (up : base.up = s.base.up) : ProtoInv { s with base := base } L := by
  refine ⟨I.ops, I.committer, ?_, ?_, I.one, ?_, ?_, ?_, ?_, ?_, ?_⟩
  · rw [log]
    exact I.count
  · rw [log]
    exact I.committing
  · rw [log]
    exact I.owner
  · rw [up]
    exact I.down
  · rw [up]
    exact I.up
  · rw [log, up]
    exact I.nodup
  · rw [log, up]
    exact I.empty
  · rw [log]
    exact I.sleeps

theorem ProtoInv.logWrite (I : ProtoInv s L) {n : Nat} (hi : L i = .client (n + 1)) {b : Nat}
    {log : LogVar} {fresh : Bool} (hw : s.base.log.logWrite b = .ok (log, fresh)) {base : St ι T}
    (hlog : base.log = log) (hup : base.up = s.base.up) : ProtoInv { s with base := base } L := by
  obtain ⟨-, -, ⟨-, rfl, -⟩ | ⟨hnew, rfl, -⟩⟩ := LogVar.logWrite_ok hw
  · exact I.same hlog hup
  · have up := I.is_up (Or.inl ⟨_, hi⟩)
    have inside : s.ops i ≠ 0 := by simp [I.ops i, hi, Role.ops]
    have quiet := I.no_owner inside
    have idle := I.no_committer quiet
    have hcom : s.base.log.committing = false := by rw [I.committing, idle]; rfl
    refine .of_quiet (hup.trans up) quiet idle (by rw [hlog]; exact hcom) I.ops
      (by rw [hlog]; exact I.count) ?_ (fun nobody => absurd (nobody i) inside) ?_
    · rw [hlog]
      exact List.nodup_append.mpr ⟨I.nodup up, by simp, by
        rintro x hx y hy rfl
        exact hnew (List.mem_singleton.mp hy ▸ hx)⟩
    · intro j hj
      obtain ⟨busy, hclient⟩ := I.sleeps j hj
      refine ⟨?_, hclient⟩
      rw [hlog]
      refine busy.imp id ?_
      rintro ⟨h, pos⟩
      simp only [List.length_append, List.length_singleton, MAXOPBLOCKS, LOGSIZE] at h ⊢
      omega

variable [DecidableEq ι]

theorem ProtoInv.ops_update (I : ProtoInv s L) (i : ι) (l : Role) (j : ι) :
    Function.update s.ops i l.ops j = (Function.update L i l j).ops := by
  by_cases e : j = i
  · subst e
    simp
  · simpa [e] using I.ops j

theorem ProtoInv.count_update (I : ProtoInv s L) (i : ι) (n : Nat) :
    ∑ j, (Function.update s.ops i n j : Int) = s.base.log.outstanding - s.ops i + n := by
  rw [sum_update (fun n : Nat => (n : Int)), I.count]

omit [Fintype ι] in
theorem owns_update (quiet : ∀ j, (L j).owns = none) {l : Role} (h : l.owns = none) (j : ι) :
    (Function.update L i l j).owns = none := by
  by_cases e : j = i
  · subst e
    simpa using h
  · simpa [e] using quiet j

/-- A sleeping process keeps its role when another one moves. -/
theorem ProtoInv.sleeper (I : ProtoInv s L) (awake : s.rest i = .awake) {l : Role} {j : ι}
    (hj : s.rest j ≠ .awake) : s.base.log.Busy ∧ ∃ n, Function.update L i l j = .client n := by
  have e : j ≠ i := by
    rintro rfl
    exact hj awake
  rw [Function.update_of_ne e]
  exact I.sleeps j hj

theorem ProtoInv.beginOp (I : ProtoInv s L) {n : Nat} (hi : L i = .client n)
    (awake : s.rest i = .awake) (admits : s.base.log.admits = true) :
    ProtoInv { s with base := { s.base with log := s.base.log.beginOp }
                      ops := Function.update s.ops i (s.ops i + 1) }
      (Function.update L i (.client (n + 1))) := by
  have up := I.is_up (Or.inl ⟨n, hi⟩)
  have hn : s.ops i = n := by rw [I.ops, hi]; rfl
  have com : s.base.log.committing = false := by
    simp only [LogVar.admits, Bool.and_eq_true, Bool.not_eq_true'] at admits
    exact admits.1
  have idle : s.committer = none := by simpa [I.committing] using com
  rw [hn]
  refine .of_quiet up (owns_update (I.quiet up idle) rfl) idle com (I.ops_update i (.client (n + 1)))
    ?_ (I.nodup up) ?_ ?_
  · rw [I.count_update, hn]
    simp only [LogVar.beginOp]
    omega
  · intro nobody
    have := nobody i
    simp at this
  · intro j hj
    obtain ⟨busy, hclient⟩ := I.sleeper (l := .client (n + 1)) awake hj
    refine ⟨busy.imp id ?_, hclient⟩
    rintro ⟨h, pos⟩
    simp only [LogVar.beginOp, MAXOPBLOCKS, LOGSIZE] at h ⊢
    omega

theorem ProtoInv.endOpDec (I : ProtoInv s L) {n : Nat} (hi : L i = .client (n + 1))
    (awake : s.rest i = .awake) :
    (s.base.log.endOpDec.1 = .ok true ∧ n = 0 ∧
      ProtoInv { s with base := { s.base with log := s.base.log.endOpDec.2 }
                        ops := Function.update s.ops i (s.ops i - 1)
                        committer := some i } (Function.update L i (.commits s.base.log.lh))) ∨
    (s.base.log.endOpDec.1 = .ok false ∧ ((∀ j, s.rest j ≠ .falling) →
      ProtoInv { s with base := { s.base with log := s.base.log.endOpDec.2 }
                        ops := Function.update s.ops i (s.ops i - 1)
                        rest := s.wakeup } (Function.update L i (.client n)))) := by
  have up := I.is_up (Or.inl ⟨_, hi⟩)
  have hn : s.ops i = n + 1 := by rw [I.ops, hi]; rfl
  have quiet := I.no_owner (i := i) (by omega)
  have idle := I.no_committer quiet
  have hcom : s.base.log.committing = false := by rw [I.committing, idle]; rfl
  have hcount : ∑ j, (Function.update s.ops i n j : Int) = s.base.log.outstanding - 1 := by
    rw [I.count_update, hn]
    omega
  rw [hn, Nat.add_sub_cancel]
  by_cases last : s.base.log.outstanding - 1 = 0
  · left
    have heq : s.base.log.endOpDec = (.ok true,
        { s.base.log with outstanding := s.base.log.outstanding - 1, committing := true }) := by
      simp [LogVar.endOpDec, hcom, last]
    have nobody : ∀ j, Function.update s.ops i n j = 0 := by
      rw [← hcount, Finset.sum_eq_zero_iff_of_nonneg fun j _ => by omega] at last
      intro j
      simpa using last j (Finset.mem_univ j)
    obtain rfl : n = 0 := by simpa using nobody i
    rw [heq]
    refine ⟨rfl, rfl, .of_commits (i := i) up (by simp) (fun j e => ?_) rfl rfl
      (I.ops_update i (.commits _)) nobody last rfl (I.nodup up)
      fun j hj => (I.sleeper awake hj).2⟩
    rw [Function.update_of_ne e]
    exact quiet j
  · right
    have heq : s.base.log.endOpDec =
        (.ok false, { s.base.log with outstanding := s.base.log.outstanding - 1 }) := by
      simp [LogVar.endOpDec, hcom, last]
    rw [heq]
    refine ⟨rfl, fun risen => .of_quiet up (owns_update quiet rfl) idle hcom
      (I.ops_update i (.client n)) hcount.symm (I.nodup up) ?_
      fun j hj => absurd (wakeup_awake risen j) hj⟩
    intro nobody
    have nobody' : ∀ j, Function.update s.ops i n j = 0 := nobody
    refine absurd (hcount.symm.trans (Finset.sum_eq_zero fun j _ => ?_)) last
    rw [nobody' j]
    rfl

theorem ProtoInv.endOpDone (I : ProtoInv s L) (hi : L i = .commits [])
    (risen : ∀ j, s.rest j ≠ .falling) :
    ProtoInv { s with base := { s.base with log := s.base.log.endOpDone }
                      rest := s.wakeup
                      committer := none } (Function.update L i (.client 0)) := by
  have up := I.is_up (Or.inr ⟨[], hi⟩)
  have own : (L i).owns = some [] := by rw [hi]; rfl
  obtain ⟨lh, nobody⟩ := I.owner i [] own
  refine .of_quiet up (fun j => ?_) rfl rfl (fun j => ?_) I.count (I.nodup up) (fun _ => lh)
    fun j hj => absurd (wakeup_awake risen j) hj
  · by_cases e : j = i
    · subst e
      simp [Role.owns]
    · rw [Function.update_of_ne e]
      exact I.others own j e
  · by_cases e : j = i
    · subst e
      simp [nobody, Role.ops]
    · simpa [e] using I.ops j

theorem ProtoInv.setLh (I : ProtoInv s L) {lh : List Nat}
    (pre : rolePre (.setLh lh : Act X) (L i)) (awake : s.rest i = .awake) :
    ProtoInv { s with base := { s.base with log := { s.base.log with lh := lh } } }
      (Function.update L i ((L i).setLh lh)) := by
  rcases pre with ⟨tx, hi⟩ | ⟨rfl, tx, hi⟩
  · have own : (L i).owns = some tx := by rw [hi]; rfl
    obtain ⟨-, nobody⟩ := I.owner i tx own
    obtain ⟨down, none, others⟩ := I.recovering hi
    refine .of_recovers (i := i) down (by simp [hi, Role.setLh]) (fun j e => ?_) none
      (by rw [I.committing, none]; rfl) nobody (I.out_zero.mpr nobody) rfl (I.down_awake down)
    rw [Function.update_of_ne e]
    exact others j e
  · have own : (L i).owns = some tx := by rw [hi]; rfl
    obtain ⟨-, nobody⟩ := I.owner i tx own
    have committer := (I.committer i).mpr ⟨tx, hi⟩
    refine .of_commits (i := i) (I.is_up (Or.inr ⟨tx, hi⟩))
      (by simp [hi, Role.setLh]) (fun j e => ?_) committer (by rw [I.committing, committer]; rfl)
      (fun j => ?_) nobody (I.out_zero.mpr nobody) rfl List.nodup_nil
      fun j hj => (I.sleeper awake hj).2
    · rw [Function.update_of_ne e]
      exact I.others own j e
    · by_cases e : j = i
      · subst e
        simp [nobody, hi, Role.setLh, Role.ops]
      · simpa [e] using I.ops j

theorem ProtoInv.ready (I : ProtoInv s L) (hi : L i = .recovers []) :
    ProtoInv { s with base := { s.base with up := true } } (Function.update L i (.client 0)) := by
  have own : (L i).owns = some [] := by rw [hi]; rfl
  obtain ⟨lh, nobody⟩ := I.owner i [] own
  obtain ⟨down, none, others⟩ := I.recovering hi
  refine .of_quiet rfl (fun j => ?_) none (by rw [I.committing, none]; rfl) (fun j => ?_) I.count
    (by simp [lh]) (fun _ => lh) fun j hj => absurd (I.down_awake down j) hj
  all_goals
    by_cases e : j = i
    · subst e
      simp [nobody, Role.owns, Role.ops]
    · simp [e, others j e, nobody, Role.owns, Role.ops]

/-- A process makes a system call. -/
theorem ProtoInv.start (I : ProtoInv s L) (up : s.base.up = true)
    (hi : L i = .off ∨ L i = .client 0) : ProtoInv s (Function.update L i (.client 0)) := by
  rcases hi with off | idle
  · have owns : ∀ j, (Function.update L i (.client 0) j).owns = (L j).owns := by
      intro j
      by_cases e : j = i
      · subst e
        simp [off, Role.owns]
      · simp [e]
    refine ⟨fun j => ?_, fun j => ?_, I.count, I.committing, ?_, ?_, ?_, ?_, I.nodup, I.empty, ?_⟩
    · by_cases e : j = i
      · subst e
        simpa [off, Role.ops] using I.ops j
      · simpa [e] using I.ops j
    · rw [I.committer j]
      by_cases e : j = i
      · subst e
        simp [off]
      · simp [e]
    · simpa only [owns] using I.one
    · simpa only [owns] using I.owner
    · intro down
      rw [up] at down
      cases down
    · intro _ j tx
      by_cases e : j = i
      · subst e
        simp
      · simpa [e] using I.up up j tx
    · intro j hj
      obtain ⟨busy, n, hn⟩ := I.sleeps j hj
      have e : j ≠ i := by
        rintro rfl
        rw [off] at hn
        cases hn
      exact ⟨busy, n, by rw [Function.update_of_ne e, hn]⟩
  · rw [← idle, Function.update_eq_self]
    exact I

omit [DecidableEq ι] in
theorem ProtoInv.resting (I : ProtoInv s L) {rest : ι → Rest}
    (h : ∀ j, rest j ≠ .awake → s.base.log.Busy ∧ ∃ n, L j = .client n) :
    ProtoInv { s with rest := rest } L :=
  { I with sleeps := h }

omit [DecidableEq ι] in
/-- An operation that is not admitted finds the log busy: an idle log is empty. -/
theorem ProtoInv.busy (I : ProtoInv s L) (up : s.base.up = true)
    (full : s.base.log.admits = false) : s.base.log.Busy := by
  cases hcom : s.base.log.committing with
  | true => exact Or.inl hcom
  | false =>
    have room : (LOGSIZE : Int) < s.base.log.lh.length + (s.base.log.outstanding + 1) * MAXOPBLOCKS := by
      simpa [LogVar.admits, hcom] using full
    refine Or.inr ⟨room, ?_⟩
    by_contra hout
    have nonneg : 0 ≤ s.base.log.outstanding := by
      rw [I.count]
      exact Finset.sum_nonneg fun j _ => by omega
    have zero : s.base.log.outstanding = 0 := by omega
    have idle : s.committer = none := by simpa [I.committing] using hcom
    rw [I.empty up idle (I.out_zero.mp zero), zero] at room
    simp only [List.length_nil, MAXOPBLOCKS, LOGSIZE] at room
    omega

def bootRole (first j : ι) : Role := if j = first then .recovers [] else .off

theorem ProtoInv.boot (first : ι) (start size : Nat) (disk : Nat → Block) (t : T) :
    ProtoInv (PSt.boot (reboot start size disk t)) (bootRole first) := by
  have hfirst : bootRole first first = .recovers [] := by simp [bootRole]
  exact .of_recovers rfl hfirst (fun j e => by simp [bootRole, e]) rfl rfl (fun _ => rfl) rfl rfl
    fun _ => rfl

end Invariant

/-! ## Runs -/

section Runs

variable {ι X T : Type} {RX : X → Type} [Fintype ι] [DecidableEq ι]
variable {execX : ι → (x : X) → T → RX x → T → Prop}

/-- Between two system calls a process has no operation under way. -/
def Role.done (l : Role) : Prop := l = .off ∨ l = .client 0

omit [Fintype ι] in
theorem bootPool_plays (first j : ι) :
    (bootPool first j : Code RX Unit).wp rolePre rolePost (bootRole first j) (fun _ l => l.done) := by
  rw [bootPool, bootRole]
  split
  · exact Prog.wp_mono boot_plays fun _ _ h => Or.inr h
  · exact Or.inl rfl

theorem proto_run {s s' : PSt ι T} {L : ι → Role} {i : ι} {a : Act X} {r : Res RX a}
    (I : ProtoInv s L) (pre : rolePre a (L i)) (step : pexec execX i a s r s') :
    ∃ l, rolePost a (L i) r l ∧ ProtoInv s' (Function.update L i l) := by
  obtain ⟨awake, guard, base, hstep, rfl⟩ := step
  have keep : ∀ {s' : PSt ι T}, ProtoInv s' L →
      ∃ l, l = L i ∧ ProtoInv s' (Function.update L i l) :=
    fun I' => ⟨L i, rfl, by rwa [Function.update_eq_self]⟩
  cases a with
  | bread b =>
    refine keep ?_
    match r, hstep with
    | none, hstep =>
      obtain rfl : base = s.base := hstep
      exact I.same rfl rfl
    | some h, ⟨_, _, hstep⟩ =>
      subst hstep
      exact I.same rfl rfl
  | getData h =>
    obtain ⟨b, -, -, rfl⟩ := hstep
    exact keep (I.same rfl rfl)
  | setData h d | bwrite h | bunpin h | brelse h =>
    obtain ⟨b, -, rfl⟩ := hstep
    exact keep (I.same rfl rfl)
  | aux x =>
    obtain ⟨t, -, rfl⟩ := hstep
    exact keep (I.same rfl rfl)
  | beginOp =>
    obtain ⟨n, hi⟩ := pre
    obtain ⟨admits, rfl⟩ := hstep
    exact ⟨.client (n + 1), by rw [hi]; rfl, I.beginOp hi awake admits⟩
  | endOpDec =>
    obtain ⟨n, hi⟩ := pre
    obtain ⟨rfl, rfl⟩ := hstep
    rcases I.endOpDec hi awake with ⟨hr, rfl, I'⟩ | ⟨hr, I'⟩
    · rw [hr]
      exact ⟨_, by rw [hi]; exact ⟨rfl, _, rfl⟩, I'⟩
    · rw [hr] at guard ⊢
      exact ⟨_, by rw [hi]; rfl, I' (guard rfl)⟩
  | endOpDone =>
    obtain rfl : base = _ := hstep
    exact ⟨.client 0, rfl, I.endOpDone pre guard⟩
  | logWrite h =>
    obtain ⟨n, hi⟩ := pre
    obtain ⟨b, -, hw⟩ := hstep
    refine keep ?_
    split at hw
    · obtain ⟨-, rfl⟩ := hw
      exact I.same rfl rfl
    · obtain ⟨-, rfl⟩ := hw
      exact I.logWrite hi ‹_› rfl rfl
  | getLog =>
    obtain ⟨rfl, rfl⟩ := hstep
    refine ⟨L i, ⟨rfl, fun tx own => (I.owner i tx own).1⟩, ?_⟩
    rw [Function.update_eq_self]
    exact I.same rfl rfl
  | setLh lh =>
    obtain rfl : base = _ := hstep
    exact ⟨_, rfl, I.setLh pre awake⟩
  | ready =>
    obtain rfl : base = _ := hstep
    exact ⟨.client 0, rfl, I.ready pre⟩
  | panic msg => cases hstep

theorem proto_env {first : ι} {s s' : PSt ι T} {L : ι → Role} {th th' : ι → Code RX Unit} {o : List Ev}
    (I : ProtoInv s L) (V : ∀ i, (th i).wp rolePre rolePost (L i) (fun _ l => l.done))
    (moves : PEnv first s th o s' th') :
    ∃ L', ProtoInv s' L' ∧ ∀ i, (th' i).wp rolePre rolePost (L' i) (fun _ l => l.done) := by
  cases moves with
  | recycle free unpinned => exact ⟨L, I.same rfl rfl, V⟩
  | crash => exact ⟨bootRole first, .boot first _ _ _ _, bootPool_plays first⟩
  | @sleep i k code awake full =>
    have hw := V i
    rw [code] at hw
    obtain ⟨n, hi⟩ := hw.1
    have busy := I.busy (I.is_up (Or.inl ⟨n, hi⟩)) full
    refine ⟨L, I.resting fun j hj => ?_, V⟩
    by_cases e : j = i
    · subst e
      exact ⟨busy, n, hi⟩
    · rw [Function.update_of_ne e] at hj
      exact I.sleeps j hj
  | @slept i falling =>
    refine ⟨L, I.resting fun j hj => ?_, V⟩
    by_cases e : j = i
    · subst e
      exact I.sleeps j (by simp [falling])
    · rw [Function.update_of_ne e] at hj
      exact I.sleeps j hj
  | @kill i asleep =>
    refine ⟨L, I.resting fun j hj => ?_, V⟩
    by_cases e : j = i
    · subst e
      simp at hj
    · rw [Function.update_of_ne e] at hj
      exact I.sleeps j hj

def protoLogic (first : ι) (calls : ι → Client RX → Prop)
    (bracketed : ∀ i c, calls i c → Bracketed c) : Logic (psys execX first calls) Role where
  inv _ s L := ProtoInv s L
  pre := rolePre
  post := rolePost
  fin := Role.done
  run_sound := proto_run
  call_sound := by
    rintro - s L i p I done ⟨up, c, hc, rfl⟩
    refine ⟨.client 0, Prog.wp_mono (client_plays (bracketed i c hc)) ?_, I.start up done⟩
    rintro - l ⟨n, rfl, rfl⟩
    exact Or.inr rfl
  env_sound := proto_env

/-- What the protocol guarantees in a configuration. -/
structure ProtocolOk (s : PSt ι T) (th : ι → Code RX Unit) : Prop where
  outstanding : s.base.log.outstanding = ∑ i, (s.ops i : Int)
  /-- Only the process that commits writes to the disk, while no operation is under way.
  Before recovery is over there is only the first process. -/
  writes : ∀ i h k, th i = .act (.bwrite h) k → s.base.log.outstanding = 0 ∧
    (s.base.up = true → s.committer = some i) ∧ ∀ j h' k', th j = .act (.bwrite h') k' → j = i
  committing : ∀ i k, th i = .act .endOpDec k →
    s.base.log.endOpDec.1 ≠ .error "log.committing"
  outside : ∀ i h k b, th i = .act (.logWrite h) k →
    s.base.log.logWrite b ≠ .error "log_write outside of trans"
  nodup : s.base.up = true → s.base.log.lh.Nodup
  empty : s.base.up = true → s.base.log.outstanding = 0 → s.base.log.committing = false →
    s.base.log.lh = []
  asleep : ∀ i, s.rest i = .asleep → s.base.log.Busy
  /-- Unless processes sleep inside an operation, someone who is not asleep is due to wake
  the sleepers. -/
  waker : (∀ j, s.rest j ≠ .awake → s.ops j = 0) → ∀ i, s.rest i = .asleep →
    ∃ j, s.rest j = .awake ∧ (s.committer = some j ∨ 0 < s.ops j)

theorem logWrite_inside {log : LogVar} {b : Nat} (pos : 1 ≤ log.outstanding) :
    log.logWrite b ≠ .error "log_write outside of trans" := by
  rw [LogVar.logWrite]
  split
  · simp
  · rw [if_neg (by omega)]
    split <;> simp

omit [DecidableEq ι] in
theorem ProtoInv.ok {s : PSt ι T} {L : ι → Role} {th : ι → Code RX Unit} (I : ProtoInv s L)
    (V : ∀ i, (th i).wp rolePre rolePost (L i) (fun _ l => l.done)) : ProtocolOk s th := by
  have owner : ∀ {i h k}, th i = .act (.bwrite h) k → ∃ tx, (L i).owns = some tx := by
    intro i h k code
    have hw := V i
    rw [code] at hw
    exact Option.ne_none_iff_exists'.mp hw.1
  have inside : ∀ {i a k}, th i = .act a k → (rolePre a (L i) → ∃ n, L i = .client (n + 1)) →
      1 ≤ s.base.log.outstanding := by
    intro i a k code client
    have hw := V i
    rw [code] at hw
    obtain ⟨n, hn⟩ := client hw.1
    exact I.out_pos (i := i) (by simp [I.ops i, hn, Role.ops])
  refine ⟨I.count, ?_, ?_, ?_, I.nodup, ?_, fun i h => (I.sleeps i (by simp [h])).1, ?_⟩
  · intro i h k code
    obtain ⟨tx, own⟩ := owner code
    refine ⟨I.out_zero.mpr (I.owner i tx own).2, fun up => ?_, fun j h' k' code' => ?_⟩
    · cases hi : L i with
      | commits tx' => exact (I.committer i).mpr ⟨tx', hi⟩
      | recovers tx' => exact absurd hi (I.up up i tx')
      | _ =>
        rw [hi] at own
        cases own
    · obtain ⟨tx', own'⟩ := owner code'
      exact I.one j i tx' tx own' own
  · intro i k code
    have pos := inside code id
    have idle : s.base.log.committing = false := by
      rw [← Bool.not_eq_true, I.committing, Option.isSome_iff_exists]
      rintro ⟨j, hj⟩
      obtain ⟨tx, hj⟩ := (I.committer j).mp hj
      have := I.out_zero.mpr (I.owner j tx (by rw [hj]; rfl)).2
      omega
    rw [LogVar.endOpDec]
    simp only [idle, Bool.false_eq_true, if_false]
    split <;> simp
  · intro i h k b code
    exact logWrite_inside (inside code id)
  · intro up zero idle
    exact I.empty up (by simpa [I.committing] using idle) (I.out_zero.mp zero)
  · intro flat i hi
    rcases (I.sleeps i (by simp [hi])).1 with com | ⟨-, pos⟩
    · rw [I.committing, Option.isSome_iff_exists] at com
      obtain ⟨j, hj⟩ := com
      refine ⟨j, ?_, Or.inl hj⟩
      by_contra asleep
      obtain ⟨-, n, hn⟩ := I.sleeps j asleep
      obtain ⟨tx, htx⟩ := (I.committer j).mp hj
      rw [hn] at htx
      cases htx
    · have some_op : ¬ ∀ j, s.ops j = 0 := fun none => by
        have := I.out_zero.mpr none
        omega
      obtain ⟨j, hj⟩ := not_forall.mp some_op
      refine ⟨j, ?_, Or.inr (Nat.pos_of_ne_zero hj)⟩
      by_contra asleep
      exact hj (flat j asleep)

/-- The transaction protocol of `begin_op`, `log_write`, `end_op` and `commit` keeps its
guarantees in every configuration of every run, across power failures. -/
theorem transaction_protocol {first : ι} {calls : ι → Client RX → Prop}
    (bracketed : ∀ i c, calls i c → Bracketed c) {start size : Nat} {disk : Nat → Block} {t : T}
    {tr : List Ev} {s : PSt ι T} {th : ι → Code RX Unit}
    (run : (psys execX first calls).Reach (PSt.boot (reboot start size disk t)) (bootPool first) tr s th) :
    ProtocolOk s th := by
  obtain ⟨L, I, V⟩ := (protoLogic first calls bracketed).reach_inv (.boot first start size disk t)
    (bootPool_plays first) run
  exact ProtoInv.ok I V

end Runs

/-! ## A run in which an operation has to wait -/

section Waiting

abbrev NoRes (x : Empty) : Type := Empty.elim x

abbrev noExec (_ : Fin 4) (x : Empty) (_ : Unit) (_ : NoRes x) (_ : Unit) : Prop := False

/-- The block of a buffer that process `i` has locked. -/
def St.lockedBlock (s : St (Fin 4) Unit) (i : Fin 4) (h : Handle) : Option Nat :=
  match s.hold h with
  | some (j, b) => if j = i then some b else none
  | none => none

theorem St.hold_of_lockedBlock {s : St (Fin 4) Unit} {i : Fin 4} {h : Handle} {b : Nat}
    (hb : s.lockedBlock i h = some b) : s.hold h = some (i, b) := by
  rw [lockedBlock] at hb
  split at hb
  · split at hb <;> simp_all
  · cases hb

/-- Computes what the boot code and `begin_op` do when one process runs at a time. -/
def waitStep (i : Fin 4) : (a : Act Empty) → St (Fin 4) Unit →
    Option (Res NoRes a × St (Fin 4) Unit)
  | .bread b, s =>
    if ∀ h, s.hold h = none then
      some (some 0, { s with hold := Function.update s.hold 0 (some (i, b)) })
    else none
  | .getData h, s => (s.lockedBlock i h).map fun b => (s.cache b, s)
  | .setData h d, s =>
    (s.lockedBlock i h).map fun b => ((), { s with cache := Function.update s.cache b d })
  | .bwrite h, s =>
    (s.lockedBlock i h).map fun b => ((), { s with disk := Function.update s.disk b (s.cache b) })
  | .brelse h, s =>
    (s.lockedBlock i h).map fun _ => ((), { s with hold := Function.update s.hold h none })
  | .getLog, s => some (s.log, s)
  | .setLh lh, s => some ((), { s with log := { s.log with lh := lh } })
  | .ready, s => some ((), { s with up := true })
  | .beginOp, s => if s.log.admits then some ((), { s with log := s.log.beginOp }) else none
  | _, _ => none

theorem waitStep_sound {i : Fin 4} {a : Act Empty} {s s' : St (Fin 4) Unit} {r : Res NoRes a}
    (h : waitStep i a s = some (r, s')) : exec noExec i a s r s' := by
  cases a with
  | bread b =>
    simp only [waitStep] at h
    split at h
    · rename_i free
      cases h
      refine ⟨free 0, fun h' j hj => ?_, rfl⟩
      rw [free h'] at hj
      cases hj
    · cases h
  | getData h' =>
    obtain ⟨b, hb, heq⟩ := Option.map_eq_some_iff.mp h
    cases heq
    exact ⟨b, St.hold_of_lockedBlock hb, rfl, rfl⟩
  | setData h' d | bwrite h' | brelse h' =>
    obtain ⟨b, hb, heq⟩ := Option.map_eq_some_iff.mp h
    cases heq
    exact ⟨b, St.hold_of_lockedBlock hb, rfl⟩
  | getLog =>
    cases h
    exact ⟨rfl, rfl⟩
  | setLh lh | ready =>
    cases h
    rfl
  | beginOp =>
    simp only [waitStep] at h
    split at h
    · cases h
      exact ⟨by assumption, rfl⟩
    · cases h
  | bunpin | endOpDec | endOpDone | logWrite | panic | aux => cases h

/-- An operation that writes nothing. -/
def emptyOp : Client NoRes := .act .beginOp fun _ => .act .endOp fun _ => .ret ()

theorem emptyOp_bracketed : Bracketed emptyOp := by
  refine ⟨trivial, ?_⟩
  rintro - n rfl
  refine ⟨Nat.one_pos, ?_⟩
  rintro - n rfl
  rfl

def waitStepper : Stepper (psys noExec 0 fun _ c => c = emptyOp) where
  step i a s :=
    match waitStep i a s.base with
    | some (r, base) => if s.rest i = .awake then some (r, s.next i base a r) else none
    | none => none
  ready s := s.base.up
  accepted _ p := p = emptyOp.interp impl
  step_sound := by
    intro i a s r s' h
    split at h
    · rename_i hstep
      split at h
      · rename_i awake
        cases h
        refine ⟨awake, ?_, _, waitStep_sound hstep, rfl⟩
        cases a with
        | endOpDec | endOpDone => cases hstep
        | _ => trivial
      · cases h
    · cases h
  call_sound up accepted := ⟨up, emptyOp, rfl, accepted⟩

/-- Recovery, three operations that begin, and a fourth that has to wait. -/
def threeOps : List (Slot (Fin 4) (Act Empty) (Res NoRes)) :=
  [.run 0 100, .start 0 (emptyOp.interp impl), .run 0 1, .start 1 (emptyOp.interp impl), .run 1 1,
    .start 2 (emptyOp.interp impl), .run 2 1, .start 3 (emptyOp.interp impl)]

/-- The next action is `begin_op`. -/
def begins : Code NoRes Unit → Bool
  | .act .beginOp _ => true
  | _ => false

theorem begins_iff {p : Code NoRes Unit} : begins p = true ↔ ∃ k, p = .act .beginOp k := by
  constructor
  · intro h
    unfold begins at h
    split at h
    · exact ⟨_, rfl⟩
    · cases h
  · rintro ⟨k, rfl⟩
    rfl

theorem transaction_protocol_waits :
    ∃ tr s th, (psys noExec 0 fun _ c => c = emptyOp).Reach
        (PSt.boot (reboot 2 30 (fun _ => Bytes.Buffer.zero) ())) (bootPool 0) tr s th ∧
      s.rest 3 = .asleep ∧ ProtocolOk s th := by
  obtain ⟨tr, s, th, run, h⟩ := waitStepper.exists_reach threeOps
    (PSt.boot (reboot 2 30 (fun _ => Bytes.Buffer.zero) ())) (bootPool 0)
    (fun s th => begins (th 3) && decide (s.rest 3 = .awake) && !s.base.log.admits)
    (by
      intro i p hp
      simp only [threeOps, List.mem_cons, List.not_mem_nil, or_false, reduceCtorEq, false_or,
        Slot.start.injEq] at hp
      rcases hp with ⟨-, rfl⟩ | ⟨-, rfl⟩ | ⟨-, rfl⟩ | ⟨-, rfl⟩ <;> rfl)
    (by decide +kernel)
  simp only [Bool.and_eq_true, decide_eq_true_eq, Bool.not_eq_true'] at h
  obtain ⟨⟨code, awake⟩, full⟩ := h
  obtain ⟨k, hcode⟩ := begins_iff.mp code
  have asleep := (run.step (.env (.sleep hcode awake full))).step (.env (.slept (i := 3) (by simp)))
  refine ⟨_, _, _, asleep, by simp, transaction_protocol ?_ asleep⟩
  rintro i c rfl
  exact emptyOp_bracketed

end Waiting

end Xv6.Log
