import Mathlib
import Xv6.Log.Crash

/-!
# Log space reservation

`begin_op` admits an operation when `MAXOPBLOCKS` blocks for every outstanding operation
fit into `LOGSIZE`, but `log_write` stops at `log.size - 1`, and `mkfs` makes `log.size`
equal to `LOGSIZE`. So the last reserved block of three full operations is refused.
-/

namespace Xv6.Log

open Interleave

section Budget

variable {X : Type} {RX : X → Type} (start size : Nat)

/-- The text of the panic in `log_write`. -/
def tooBig : String := "too big a transaction"

/-- Ghost state of a client with a budget: its view and the blocks it has logged since
`begin_op`. -/
abbrev Ledger : Type := View Bool Bool × List Nat

def bpre : OpAct X → Ledger → Prop
  | .logWrite h, (v, ls) => cpre (X := X) start size (.logWrite h) v ∧
      ∀ b m, v.held h = some (b, m) → b ∈ ls ∨ ls.length < MAXOPBLOCKS
  | a, (v, _) => cpre start size a v

def bpost : (a : OpAct X) → Ledger → OpRes RX a → Ledger → Prop
  | .logWrite h, (v, ls), r, (v', ls') => cpost (.logWrite h) v r v' ∧
      ∀ b m, v.held h = some (b, m) → ls' = if b ∈ ls then ls else ls ++ [b]
  | .beginOp, (v, _), r, (v', ls') => cpost .beginOp v r v' ∧ ls' = []
  | a, (v, ls), r, (v', ls') => cpost a v r v' ∧ ls' = ls

/-- A client that logs at most `MAXOPBLOCKS` distinct blocks in each operation, and has no
panic of its own with the text of `log_write`. -/
structure Budgeted (c : Client RX) : Prop where
  budget : c.wp (bpre start size) bpost (View.idle, []) (fun _ l => l.1 = View.idle)
  panics : c.wp (fun a (_ : Unit) => a ≠ .panic tooBig) (fun _ _ _ _ => True) () (fun _ _ => True)

variable {start size}

theorem Budgeted.disciplined {c : Client RX} (h : Budgeted start size c) :
    Disciplined start size c := by
  refine Prog.wp_mono (Prog.wp_project Prod.fst ?_ ?_ h.budget) ?_
  · rintro a ⟨v, ls⟩ ha
    cases a with
    | logWrite h' => exact ha.1
    | _ => exact ha
  · rintro a ⟨v, ls⟩ r v' ha hpost
    cases a with
    | logWrite h' =>
      obtain ⟨b, m, hb, -⟩ := ha.1.2
      refine ⟨(v', if b ∈ ls then ls else ls ++ [b]), rfl, hpost, ?_⟩
      intro b' m' hb'
      rw [hb] at hb'
      cases hb'
      rfl
    | beginOp => exact ⟨(v', []), rfl, hpost, rfl⟩
    | _ => exact ⟨(v', ls), rfl, hpost, rfl⟩
  · rintro x v ⟨l, rfl, hl⟩
    exact hl

end Budget

/-! ## Code that does not panic on its own -/

section Calm

variable {X : Type} {RX : X → Type} {α β : Type}

def calmPre : Act X → Unit → Prop
  | .panic msg, _ => msg ≠ tooBig
  | _, _ => True

def calmPost : (a : Act X) → Unit → Res RX a → Unit → Prop
  | .logWrite _, _, r, _ => r ≠ .error tooBig
  | .endOpDec, _, r, _ => r ≠ .error tooBig
  | _, _, _, _ => True

/-- The code panics with `tooBig` only where `log_write` answers so. -/
abbrev Calm (p : Code RX α) : Prop := p.wp calmPre calmPost () (fun _ _ => True)

theorem Calm.bind {p : Code RX β} {k : β → Code RX α} (hp : Calm p) (hk : ∀ x, Calm (k x)) :
    Calm (p >>= k) :=
  Prog.wp_seq hp fun x _ _ => hk x

theorem calm_panic {msg : String} (h : msg ≠ tooBig) : Calm (panic msg : Code RX α) :=
  ⟨h, fun e => Empty.elim e⟩

theorem calm_bread (b : Nat) : Calm (bread b : Code RX Handle) := by
  refine ⟨trivial, fun r _ _ => ?_⟩
  match r with
  | some h => trivial
  | none => exact calm_panic (by decide)

theorem calm_getLog : Calm (getLog : Code RX LogVar) := ⟨trivial, fun _ _ _ => trivial⟩

theorem calm_writeLogFrom (k : Nat) : Calm (writeLogFrom k : Code RX Unit) := by
  induction k with
  | zero => trivial
  | succ k ih =>
    refine calm_getLog.bind fun log => ?_
    dsimp only
    split
    · trivial
    · refine (calm_bread _).bind fun toBuf => (calm_bread _).bind fun fromBuf => ?_
      exact ⟨trivial, fun _ _ _ => ⟨trivial, fun _ _ _ => ⟨trivial, fun _ _ _ => ⟨trivial,
        fun _ _ _ => ⟨trivial, fun _ _ _ => ih⟩⟩⟩⟩⟩

theorem calm_installTransFrom (recovering : Bool) (k : Nat) :
    Calm (installTransFrom recovering k : Code RX Unit) := by
  induction k with
  | zero => trivial
  | succ k ih =>
    refine calm_getLog.bind fun log => ?_
    dsimp only
    split
    · trivial
    · refine (calm_bread _).bind fun lbuf => (calm_bread _).bind fun dbuf => ?_
      refine ⟨trivial, fun _ _ _ => ⟨trivial, fun _ _ _ => ⟨trivial, fun _ _ _ => ?_⟩⟩⟩
      have rest : Calm (do brelse lbuf; brelse dbuf; installTransFrom recovering k : Code RX Unit) :=
        ⟨trivial, fun _ _ _ => ⟨trivial, fun _ _ _ => ih⟩⟩
      cases recovering with
      | true => exact rest
      | false => exact ⟨trivial, fun _ _ _ => rest⟩

theorem calm_writeHead : Calm (writeHead : Code RX Unit) := by
  refine ⟨trivial, fun log _ _ => (calm_bread _).bind fun buf => ?_⟩
  exact ⟨trivial, fun _ _ _ => ⟨trivial, fun _ _ _ => ⟨trivial, fun _ _ _ => ⟨trivial,
    fun _ _ _ => trivial⟩⟩⟩⟩

theorem calm_commit : Calm (commit : Code RX Unit) := by
  refine ⟨trivial, fun log _ _ => ?_⟩
  change Calm (if 0 < (log : LogVar).lh.length then _ else _)
  split
  · refine (calm_writeLogFrom _).bind fun _ => calm_writeHead.bind fun _ => ?_
    exact (calm_installTransFrom _ _).bind fun _ => ⟨trivial, fun _ _ _ => calm_writeHead⟩
  · trivial

theorem calm_boot : Calm (boot : Code RX Unit) := by
  have hread : Calm (readHead : Code RX Unit) := by
    refine ⟨trivial, fun log _ _ => (calm_bread _).bind fun buf => ?_⟩
    exact ⟨trivial, fun _ _ _ => ⟨trivial, fun _ _ _ => ⟨trivial, fun _ _ _ => trivial⟩⟩⟩
  have hrec : Calm (recoverFromLog : Code RX Unit) := hread.bind fun _ =>
    (calm_installTransFrom _ _).bind fun _ => ⟨trivial, fun _ _ _ => calm_writeHead⟩
  exact hrec.bind fun _ => ⟨trivial, fun _ _ _ => trivial⟩

theorem calm_impl (a : OpAct X) (h : ∀ msg, a = .panic msg → msg ≠ tooBig) :
    Calm (impl a : Code RX (OpRes RX a)) := by
  cases a with
  | bread b => exact calm_bread b
  | panic msg => exact ⟨h msg rfl, fun e => Empty.elim e⟩
  | endOp =>
    refine ⟨trivial, fun r _ hr => ?_⟩
    match r, hr with
    | .error msg, hr => exact calm_panic fun e => hr (by rw [e])
    | .ok false, _ => trivial
    | .ok true, _ => exact calm_commit.bind fun _ => ⟨trivial, fun _ _ _ => trivial⟩
  | logWrite h' =>
    refine ⟨trivial, fun r _ hr => ?_⟩
    match r, hr with
    | .error msg, hr => exact calm_panic fun e => hr (by rw [e])
    | .ok (), _ => trivial
  | _ => exact ⟨trivial, fun _ _ _ => trivial⟩

theorem calm_client {c : Client RX} (h : c.wp (fun a (_ : Unit) => a ≠ .panic tooBig)
    (fun _ _ _ _ => True) () (fun _ _ => True)) : Calm (c.interp impl : Code RX Unit) := by
  induction c with
  | ret x => trivial
  | act a k ih =>
    refine (calm_impl a ?_).bind fun r => ih r (h.2 r () trivial)
    rintro msg rfl rfl
    exact h.1 rfl

end Calm

section Main

variable {ι X T : Type} {RX : X → Type} [Fintype ι] [DecidableEq ι]
variable {execX : ι → (x : X) → T → RX x → T → Prop} {first : ι} {calls : ι → Client RX → Prop}
variable {start : Nat} {disk : Nat → Block} {t : T} {tr : List Ev} {s : St ι T}
variable {th : ι → Code RX Unit}

/-- Every `log_write` of the run finds at least two log blocks unused. -/
def roomy (_ : ι) : Act X → St ι T → Prop
  | .logWrite _, s => s.log.lh.length + 2 ≤ LOGSIZE
  | _, _ => True

omit [Fintype ι] [DecidableEq ι] in
theorem logWrite_roomy {log : LogVar} (size : log.size = LOGSIZE) (b : Nat)
    (room : log.lh.length + 2 ≤ LOGSIZE) : log.logWrite b ≠ .error tooBig := by
  have hL := LOGSIZE_eq
  have h : ¬ (log.lh.length ≥ LOGSIZE ∨ log.lh.length ≥ log.size - 1) := by omega
  rw [LogVar.logWrite, if_neg h]
  split
  · simp [tooBig]
  · split <;> simp

omit [Fintype ι] [DecidableEq ι] in
theorem logWrite_not_roomy {log : LogVar} (size : log.size = LOGSIZE) (b : Nat)
    (full : ¬ log.lh.length + 2 ≤ LOGSIZE) : log.logWrite b = .error tooBig := by
  have hL := LOGSIZE_eq
  have h : log.lh.length ≥ LOGSIZE ∨ log.lh.length ≥ log.size - 1 := by omega
  rw [LogVar.logWrite, if_pos h]
  rfl

omit [Fintype ι] [DecidableEq ι] in
theorem exec_size {i : ι} {a : Act X} {r : Res RX a} {s' : St ι T} (step : exec execX i a s r s') :
    s'.log.size = s.log.size := by
  cases a with
  | bread b =>
    cases r with
    | none => rw [show s' = s from step]
    | some h => rw [step.2.2]
  | logWrite h =>
    obtain ⟨b, -, step⟩ := step
    cases hw : s.log.logWrite b with
    | error msg =>
      rw [hw] at step
      rw [step.2]
    | ok x =>
      rw [hw] at step
      rw [step.2]
      obtain ⟨-, -, ⟨-, h, -⟩ | ⟨-, h, -⟩⟩ := LogVar.logWrite_ok hw <;> rw [h]
  | endOpDec =>
    rw [step.2]
    simp only [LogVar.endOpDec]
    split
    · rfl
    · split <;> rfl
  | beginOp => rw [step.2]; rfl
  | getData h => obtain ⟨b, -, -, rfl⟩ := step; rfl
  | getLog => rw [step.2]
  | aux x => obtain ⟨t, -, rfl⟩ := step; rfl
  | panic msg => exact Empty.elim r
  | endOpDone | setLh lh | ready => obtain rfl : s' = _ := step; rfl
  | _ => obtain ⟨b, -, rfl⟩ := step; rfl

omit [Fintype ι] [DecidableEq ι] in
theorem exec_calm {i : ι} {a : Act X} {r : Res RX a} {s' : St ι T} (size : s.log.size = LOGSIZE)
    (room : roomy i a s) (step : exec execX i a s r s') : calmPost a () r () := by
  cases a with
  | logWrite h =>
    obtain ⟨b, -, step⟩ := step
    have hne := logWrite_roomy size b room
    cases hw : s.log.logWrite b with
    | error msg =>
      rw [hw] at step hne
      rw [step.1]
      intro e
      exact hne (by cases e; rfl)
    | ok x =>
      rw [hw] at step
      rw [step.1]
      intro e
      cases e
  | endOpDec =>
    rw [step.1]
    simp only [LogVar.endOpDec]
    split
    · exact fun e => absurd (Except.error.inj e) (by decide)
    · split <;> · intro e; cases e
  | _ => trivial

variable (execX first calls) in
omit [Fintype ι] in
/-- Runs with room keep every thread away from the panic. -/
def calmLogic (calm : ∀ i c, calls i c → Calm (c.interp impl : Code RX Unit)) :
    Logic ((sys execX first calls).restrict roomy) Unit where
  inv _ s _ := s.log.size = LOGSIZE
  pre := calmPre
  post := calmPost
  fin _ := True
  run_sound := by
    rintro tr s L i a r s' size - ⟨room, step⟩
    exact ⟨(), exec_calm size room step, (exec_size step).trans size⟩
  call_sound := by
    rintro tr s L i p size - ⟨-, c, hc, rfl⟩
    exact ⟨(), calm i c hc, size⟩
  env_sound := by
    rintro tr s L th o s' th' size verified moves
    cases moves with
    | recycle => exact ⟨L, size, verified⟩
    | crash =>
      refine ⟨L, size, fun i => ?_⟩
      unfold bootPool
      split
      · exact calm_boot
      · trivial

end Main

/-! ## Three full operations -/

section Full

variable {X : Type} {RX : X → Type}

/-- Overwrite the given blocks, one after the other. -/
def fill : List Nat → Client RX → Client RX
  | [], k => k
  | b :: bs, k => .act (.bread b) fun h => .act (.setData h Bytes.Buffer.zero) fun _ =>
      .act (.logWrite h) fun _ => .act (.brelse h) fun _ => fill bs k

def fullOp (bs : List Nat) : Client RX := .act .beginOp fun _ => fill bs (.act .endOp .ret)

theorem fill_append (bs cs : List Nat) (k : Client RX) :
    fill (bs ++ cs) k = fill bs (fill cs k) := by
  induction bs with
  | nil => rfl
  | cons b bs ih => simp only [List.cons_append, fill, ih]

theorem fill_budgeted {start size : Nat} {bs : List Nat} (home : ∀ b ∈ bs, Home start size b)
    {ls : List Nat} (room : ls.length + bs.length ≤ MAXOPBLOCKS) {k : Client RX}
    {Q : Unit → Ledger → Prop}
    (rest : ∀ ls', k.wp (bpre start size) bpost (⟨true, fun _ => none⟩, ls') Q) :
    (fill bs k).wp (bpre start size) bpost (⟨true, fun _ => none⟩, ls) Q := by
  induction bs generalizing ls with
  | nil => exact rest ls
  | cons b bs ih =>
    have hb : Home start size b := home b (by simp)
    simp only [List.length_cons] at room
    refine ⟨trivial, ?_⟩
    rintro (h : Handle) ⟨v, ls₁⟩ ⟨⟨-, rfl⟩, rfl⟩
    refine ⟨⟨rfl, b, false, by simp, hb⟩, ?_⟩
    rintro - ⟨v, ls₁⟩ ⟨⟨c, m, hc, rfl⟩, rfl⟩
    obtain rfl : b = c := by simp_all
    refine ⟨⟨⟨rfl, b, true, by simp, hb⟩, fun _ _ _ => Or.inr (by omega)⟩, ?_⟩
    rintro - ⟨v, ls₁⟩ ⟨⟨c, m, hc, rfl⟩, hls⟩
    obtain rfl : b = c := by simp_all
    have hls := hls b m hc
    refine ⟨⟨b, by simp⟩, ?_⟩
    rintro - ⟨v, ls₂⟩ ⟨rfl, rfl⟩
    have hidle : ∀ (x y z : Option (Nat × Bool)), ((((⟨true, fun _ => none⟩ : View Bool Bool).set h x).set h
        y).set h z).set h none = ⟨true, fun _ => none⟩ := by
      intro x y z
      simp [View.set]
    rw [hidle]
    refine ih (fun c hc => home c (by simp [hc])) ?_
    rw [hls]
    split
    · omega
    · simp only [List.length_append, List.length_singleton]
      omega

theorem fullOp_budgeted {start size : Nat} {bs : List Nat} (home : ∀ b ∈ bs, Home start size b)
    (room : bs.length ≤ MAXOPBLOCKS) : Budgeted start size (fullOp bs : Client RX) := by
  refine ⟨⟨rfl, ?_⟩, ⟨by simp, fun _ _ _ => ?_⟩⟩
  · rintro - ⟨v, ls⟩ ⟨rfl, rfl⟩
    refine fill_budgeted home (by simpa using room) fun ls' => ⟨⟨rfl, by simp⟩, ?_⟩
    rintro - ⟨v, ls⟩ ⟨rfl, -⟩
    rfl
  · clear home room
    induction bs with
    | nil => exact ⟨by simp, fun _ _ _ => trivial⟩
    | cons b bs ih =>
      exact ⟨by simp, fun _ _ _ => ⟨by simp, fun _ _ _ => ⟨by simp, fun _ _ _ => ⟨by simp,
        fun _ _ _ => ih⟩⟩⟩⟩

end Full

section Run

variable {ι X T : Type} {RX : X → Type} [DecidableEq ι]
variable (execX : ι → (x : X) → T → RX x → T → Prop) (first : ι) (calls : ι → Client RX → Prop)

/-- Between two block writes of a client that runs undisturbed. -/
structure Resting (s : St ι T) (start : Nat) (out : Int) (lh : List Nat) : Prop where
  hold : s.hold = fun _ => none
  log : s.log = ⟨start, LOGSIZE, out, false, lh⟩
  up : s.up = true

variable {s : St ι T} {start : Nat} {out : Int} {lh : List Nat} {i : ι}

omit [DecidableEq ι] in
theorem exec_logWrite_ok {h : Handle} {b : Nat} {log : LogVar} {fresh : Bool}
    (hold : s.hold h = some (i, b)) (hw : s.log.logWrite b = .ok (log, fresh)) :
    exec execX i (.logWrite h) s (.ok ()) { s with
      log := log
      pin := if fresh then Function.update s.pin b (s.pin b + 1) else s.pin } := by
  refine ⟨b, hold, ?_⟩
  rw [hw]
  exact ⟨rfl, rfl⟩

omit [DecidableEq ι] in
theorem exec_logWrite_error {h : Handle} {b : Nat} {msg : String} (hold : s.hold h = some (i, b))
    (hw : s.log.logWrite b = .error msg) : exec execX i (.logWrite h) s (.error msg) s := by
  refine ⟨b, hold, ?_⟩
  rw [hw]
  exact ⟨rfl, rfl⟩

variable {execX first calls}

theorem fill_can {bs : List Nat} (hr : Resting s start out lh) (hout : 1 ≤ out)
    (room : lh.length + bs.length ≤ LOGSIZE - 1) (nodup : (lh ++ bs).Nodup) {k : Client RX}
    {P : St ι T → Code RX Unit → Prop}
    (rest : ∀ s', Resting s' start out (lh ++ bs) →
      (sys execX first calls).Can i s' (k.interp impl) fun _ => P) :
    (sys execX first calls).Can i s ((fill bs k).interp impl) fun _ => P := by
  induction bs generalizing s lh with
  | nil => exact rest s (by simpa using hr)
  | cons b bs ih =>
    have hL := LOGSIZE_eq
    simp only [List.length_cons] at room
    have hb : b ∉ lh := by
      intro hm
      have := (List.nodup_append.mp nodup).2.2 b hm b (by simp)
      exact this rfl
    refine .step (some 0) ⟨by simp [hr.hold], by simp [hr.hold], rfl⟩ ?_
    refine .step () ⟨b, rfl, rfl⟩ ?_
    have hw : s.log.logWrite b = .ok (⟨start, LOGSIZE, out, false, lh ++ [b]⟩, true) := by
      have h1 : ¬ (lh.length ≥ LOGSIZE ∨ lh.length ≥ LOGSIZE - 1) := by omega
      have h2 : ¬ out < 1 := by omega
      rw [hr.log, LogVar.logWrite, if_neg h1, if_neg h2, if_neg hb]
    refine .step (.ok ()) (exec_logWrite_ok execX rfl hw) ?_
    refine .step () ⟨b, rfl, rfl⟩ ?_
    refine ih (show Resting _ start out (lh ++ [b]) from ⟨by simp [hr.hold], rfl, hr.up⟩) ?_ ?_ ?_
    · simp only [List.length_append, List.length_singleton]
      omega
    · simpa using nodup
    · intro s' hs'
      exact rest s' (by simpa using hs')

/-- `begin_op` admits three operations at once. -/
theorem beginOp_can {bs : List Nat} (hr : Resting s start out []) (hout : out ≤ 2) :
    (sys execX first calls).Can i s ((fullOp bs).interp impl) fun _ s' p =>
      Resting s' start (out + 1) [] ∧ p = (fill bs (.act .endOp .ret)).interp impl := by
  have admits : s.log.admits = true := by
    have hL := LOGSIZE_eq
    simp [hr.log, LogVar.admits, MAXOPBLOCKS, hL]
    omega
  refine .step () ⟨admits, rfl⟩ (.done ⟨⟨hr.hold, ?_, hr.up⟩, rfl⟩)
  simp [LogVar.beginOp, hr.log]

/-- On the way to the next `log_write`. -/
theorem fill_logs {b : Nat} (hr : Resting s start out lh) {k : Client RX} :
    (sys execX first calls).Can i s ((fill [b] k).interp impl) fun _ s' p =>
      s'.hold 0 = some (i, b) ∧ s'.log = ⟨start, LOGSIZE, out, false, lh⟩ ∧
        p = ((.act (.logWrite 0) fun _ => .act (.brelse 0) fun _ => k) : Client RX).interp impl := by
  refine .step (some 0) ⟨by simp [hr.hold], by simp [hr.hold], rfl⟩ ?_
  refine .step () ⟨b, rfl, rfl⟩ ?_
  exact .done ⟨rfl, hr.log, rfl⟩

/-- The next block after `LOGSIZE - 1` distinct ones is refused. -/
theorem logWrite_full (b : Nat) (full : lh.length = LOGSIZE - 1) :
    LogVar.logWrite ⟨start, LOGSIZE, out, false, lh⟩ b = .error "too big a transaction" := by
  rw [LogVar.logWrite, if_pos (Or.inr (Nat.le_of_eq full.symm))]

end Run

/-- Three operations with ten distinct blocks each get as far as the thirtieth block. -/
theorem three_full_operations :
    ∃ tr s th, (sys noAux 0 (fun _ c => Budgeted 2 LOGSIZE c)).Reach
        (reboot 2 LOGSIZE blankDisk ()) (bootPool 0) tr s th ∧
      Resting s 2 3 (List.range' 100 29) ∧
      th 3 = (fill [129] (.act .endOp .ret)).interp impl := by
  have empty : headN (blankDisk 2) = 0 := by simp [headN, blankDisk]
  have budgeted : ∀ n ≤ 3, Budgeted 2 LOGSIZE (fullOp (List.range' (100 + 10 * n) 10)
      : Client fun x : Empty => x.elim) := by
    intro n hn
    refine fullOp_budgeted (fun b hb => ?_) (by simp [MAXOPBLOCKS])
    simp only [List.mem_range'_1] at hb
    exact ⟨by have hL := LOGSIZE_eq; simp only [InLog]; omega, by omega⟩
  obtain ⟨_, s₀, r, hold, hlog⟩ := boot_reaches_ready noAux 0 (fun _ c => Budgeted 2 LOGSIZE c)
    LOGSIZE () empty
  have r := r.step (.run (i := 0) (r := ()) (Function.update_self ..) rfl)
  have h₀ : Resting { s₀ with up := true } 2 0 [] := ⟨hold, hlog, rfl⟩
  have r := r.step (.call (i := 1) rfl ⟨rfl, _, budgeted 0 (by omega), rfl⟩)
  have r := r.step (.call (i := 2) rfl ⟨rfl, _, budgeted 1 (by omega), rfl⟩)
  have r := r.step (.call (i := 3) rfl ⟨rfl, _, budgeted 2 (by omega), rfl⟩)
  obtain ⟨_, s₁, _, ⟨h₁, rfl⟩, r⟩ := (beginOp_can h₀ (by omega)).reach (i := 1) r rfl
  obtain ⟨_, s₂, _, ⟨h₂, rfl⟩, r⟩ := (beginOp_can h₁ (by omega)).reach (i := 2) r rfl
  obtain ⟨_, s₃, _, ⟨h₃, rfl⟩, r⟩ := (beginOp_can h₂ (by omega)).reach (i := 3) r rfl
  have fits : (List.range' 100 10 ++ List.range' 110 10 ++ List.range' 120 9).Nodup := by decide
  obtain ⟨_, s₄, _, h₄, r⟩ := (fill_can (P := fun s' _ => Resting s' 2 3 (List.range' 100 10)) h₃
    (by omega) (by decide) (by decide) fun s' h' => .done h').reach (i := 1) r rfl
  obtain ⟨_, s₅, _, h₅, r⟩ := (fill_can (P := fun s' _ => Resting s' 2 3
    (List.range' 100 10 ++ List.range' 110 10)) h₄ (by omega) (by decide)
    (List.nodup_append.mp fits).1 fun s' h' => .done h').reach (i := 2) r rfl
  have last : (sys noAux 0 (fun _ c => Budgeted 2 LOGSIZE c)).Can 3 s₅
      ((fill (List.range' 120 9 ++ [129]) (.act .endOp .ret)).interp impl) fun _ s p =>
        Resting s 2 3 (List.range' 100 29) ∧ p = (fill [129] (.act .endOp .ret)).interp impl := by
    rw [fill_append]
    exact fill_can h₅ (by omega) (by decide) fits fun s' h' => .done ⟨h', rfl⟩
  obtain ⟨_, s₆, _, ⟨h₆, rfl⟩, r⟩ := last.reach r rfl
  exact ⟨_, s₆, _, r, h₆, rfl⟩

end Xv6.Log
