import Xv6.Log.Steps

/-!
# Crash atomicity of the log

The step lemmas become a ghost logic for the log layer under any pool of disciplined
clients, with power failures at any point. What the invariant says at the last step of the
boot code is the statement about recovery.
-/

namespace Xv6.Log

open Interleave

section Pool

variable {ι X T : Type} {RX : X → Type} [Fintype ι] [DecidableEq ι]

/-- `Inv` for the ghost states of a pool. -/
abbrev PoolInv (start size : Nat) (H : Hist) (s : St ι T) (L : ι → Loc) : Prop :=
  Inv start size H s (fun i => (L i).view.held) (fun i => (L i).view.inOp) (fun i => (L i).own)
    (fun i => (L i).live)

variable {start size : Nat} {H : Hist} {s : St ι T} {L : ι → Loc} {i : ι} {l : Loc}

/-- The invariant after thread `i` moved, field by field. -/
theorem PoolInv.update
    (I : Inv start size H s (Function.update (fun j => (L j).view.held) i l.view.held)
      (Function.update (fun j => (L j).view.inOp) i l.view.inOp)
      (Function.update (fun j => (L j).own) i l.own)
      (Function.update (fun j => (L j).live) i l.live)) :
    PoolInv start size H s (Function.update L i l) := by
  have proj : ∀ {β : Type} (f : Loc → β), (fun j => f (Function.update L i l j)) =
      Function.update (fun j => f (L j)) i (f l) := fun f => Function.comp_update f L i l
  unfold PoolInv
  rw [proj fun l => l.view.held, proj fun l => l.view.inOp, proj Loc.own, proj Loc.live]
  exact I

variable (execX : ι → (x : X) → T → RX x → T → Prop)

/-- Every action that respects its precondition keeps the invariant. -/
theorem act_sound {a : Act X} {r : Res RX a} {s' : St ι T} (I : PoolInv start size H s L)
    (h : pre start size a (L i)) (step : exec execX i a s r s') :
    ∃ l, actPost start size a (L i) r l ∧
      PoolInv start size ((obs a s).foldl (Hist.step start) H) s' (Function.update L i l) := by
  obtain ⟨live, h⟩ := h
  cases a with
  | bread b =>
    cases r with
    | none =>
      obtain rfl : s' = s := step
      exact ⟨L i, rfl, by simpa [obs] using I⟩
    | some h' =>
      obtain ⟨free, unlocked, rfl⟩ := step
      refine ⟨_, ⟨I.agrees.none_of_none free i, rfl⟩, PoolInv.update ?_⟩
      simpa [obs] using I.bread free unlocked
  | getData h' =>
    obtain ⟨b, hb, rfl, rfl⟩ := step
    refine ⟨L i, ⟨rfl, ?_⟩, by simpa [obs] using I⟩
    intro g c m hg hc clean
    obtain rfl := (I.agrees.blk_eq hc hb).2
    have O := I.owned i g hg
    refine ⟨fun hin => O.lcache b hin (by simp [clean]), fun hout hphase => ?_⟩
    have hp := O.phase
    simp only [PhaseInv, hphase] at hp
    exact (hp.2.2.2 b hout).2.2
  | setData h' d =>
    obtain ⟨b, hb, rfl⟩ := step
    obtain ⟨c, m, hc, hmay⟩ := h
    obtain rfl := (I.agrees.blk_eq hc hb).2
    refine ⟨_, ⟨b, m, hc, rfl⟩, PoolInv.update ?_⟩
    cases hown : (L i).own with
    | none =>
      rw [hown] at hmay
      have hself : Function.update (fun j => (L j).own) i none = fun j => (L j).own := by
        rw [← hown, Function.update_eq_self]
      simpa [obs, hself, hb, Hist.step] using I.modify d hc hmay.1 hmay.2
    | some g =>
      rw [hown] at hmay
      simpa [obs, hb, Hist.step] using I.ownSet hown hc hmay.1 hmay.2
  | bwrite h' =>
    obtain ⟨b, hb, rfl⟩ := step
    obtain ⟨g, c, d, hg, hc, hd, may⟩ := h
    obtain rfl := (I.agrees.blk_eq hc hb).2
    refine ⟨_, ⟨g, b, d, hg, hc, hd, rfl⟩, PoolInv.update ?_⟩
    simpa [obs, hb] using I.ownWrite hg hc hd may
  | bunpin h' =>
    obtain ⟨b, hb, rfl⟩ := step
    obtain ⟨g, t, u, c, m, hg, hr, hphase, hu, hc, htx⟩ := h
    obtain rfl := (I.agrees.blk_eq hc hb).2
    refine ⟨_, ⟨g, t, u, hg, hphase, rfl⟩, PoolInv.update ?_⟩
    simpa [obs, hb, Hist.step] using I.bunpin hg hr hphase hu htx
  | brelse h' =>
    obtain ⟨b, hb, rfl⟩ := step
    obtain ⟨c, hc⟩ := h
    refine ⟨_, rfl, PoolInv.update ?_⟩
    simpa [obs] using I.brelse hc
  | beginOp =>
    obtain ⟨admits, rfl⟩ := step
    refine ⟨_, rfl, PoolInv.update ?_⟩
    simpa [obs] using I.beginOp h.1 h.2 live admits
  | endOpDec =>
    obtain ⟨rfl, rfl⟩ := step
    rcases I.endOpDec h.2.1 h.2.2 with ⟨hr, I'⟩ | ⟨hr, g, h1, h2, h3, h4, I'⟩
    · refine ⟨_, ?_, PoolInv.update (l := { L i with view := { (L i).view with inOp := false } }) ?_⟩
      · rw [hr]
        rfl
      · simpa [obs] using I'
    · refine ⟨_, ?_, PoolInv.update
        (l := { L i with view := { (L i).view with inOp := false }, own := some g }) ?_⟩
      · rw [hr]
        exact ⟨g, h1, h2, h3, h4, rfl⟩
      · simpa [obs] using I'
  | endOpDone =>
    obtain rfl : s' = _ := step
    obtain ⟨g, hg, hr, clean, hphase⟩ := h
    have hup : s.up = true := by rw [I.ups i g hg, hr]; rfl
    refine ⟨_, rfl, PoolInv.update ?_⟩
    simpa [obs, LogVar.endOpDone] using I.release hg clean hphase rfl hup
  | logWrite h' =>
    obtain ⟨b, hb, step⟩ := step
    obtain ⟨hno, hop, c, m, hc, home⟩ := h
    obtain rfl := (I.agrees.blk_eq hc hb).2
    cases hw : s.log.logWrite b with
    | error msg =>
      rw [hw] at step
      obtain ⟨rfl, rfl⟩ := step
      exact ⟨L i, rfl, by simpa [obs, hb, hw] using I⟩
    | ok x =>
      rw [hw] at step
      obtain ⟨rfl, rfl⟩ := step
      refine ⟨_, ⟨b, m, hc, rfl⟩, PoolInv.update ?_⟩
      simpa [obs, hb, hw] using I.logWrite hc hop home hw
  | getLog =>
    obtain ⟨rfl, rfl⟩ := step
    exact ⟨L i, ⟨rfl, I.geom.1, fun g hg => (I.owned i g hg).lh⟩, by simpa [obs] using I⟩
  | setLh lh =>
    obtain rfl : s' = _ := step
    obtain ⟨g, hg, clean, ⟨hphase, rfl⟩ | ⟨u, hphase, hu, rfl⟩⟩ := h
    · refine ⟨_, ⟨g, hg, Or.inl ⟨hphase, rfl⟩⟩, PoolInv.update ?_⟩
      simpa [obs] using I.readHead hg hphase
    · refine ⟨_, ⟨g, hg, Or.inr ⟨_, u, hphase, rfl⟩⟩, PoolInv.update ?_⟩
      simpa [obs] using I.forget hg clean hphase hu
  | ready =>
    obtain rfl : s' = _ := step
    obtain ⟨g, hg, hr, clean, hphase⟩ := h
    have hc : s.log.committing = false := by rw [I.commits i g hg, hr]; rfl
    refine ⟨_, rfl, PoolInv.update ?_⟩
    have hlog : s.log = { s.log with committing := false } := by rw [← hc]
    simpa [obs] using I.release hg clean (Or.inl hphase) hlog rfl
  | panic msg => exact Empty.elim r
  | aux x =>
    obtain ⟨t, -, rfl⟩ := step
    refine ⟨L i, rfl, ?_⟩
    have : PoolInv start size H { s with aux := t } L := ⟨I.geom, I.agrees, I.uniq, I.count, I.marks,
      I.marksOwn, I.holds, I.one, I.noOp, I.commits, I.alone, I.ups, I.owned, I.quiet⟩
    simpa [obs] using this

/-- A process that is idle may start once recovery is over. -/
theorem start_sound (I : PoolInv start size H s L) (up : s.up = true) (idle : (L i).Fin) :
    PoolInv start size H s (Function.update L i ⟨true, View.idle, none⟩) := by
  refine PoolInv.update ?_
  obtain ⟨hview, hown⟩ := idle
  have hheld : Function.update (fun j => (L j).view.held) i (View.idle : View Bool Bool).held =
      fun j => (L j).view.held := by rw [← hview, Function.update_eq_self]
  have hop : Function.update (fun j => (L j).view.inOp) i (View.idle : View Bool Bool).inOp =
      fun j => (L j).view.inOp := by rw [← hview, Function.update_eq_self]
  have hown : Function.update (fun j => (L j).own) i none = fun j => (L j).own := by
    rw [← hown, Function.update_eq_self]
  simp only [hheld, hop, hown]
  refine ⟨I.geom, I.agrees, I.uniq, I.count, I.marks, I.marksOwn, I.holds, I.one, I.noOp, I.commits,
    ?_, I.ups, I.owned, I.quiet⟩
  intro j g hg hr
  have := I.ups j g hg
  rw [up, hr] at this
  cases this

/-- The ghost states right after a power failure. -/
def bootLoc (start : Nat) (disk base : Nat → Block) (first j : ι) : Loc where
  live := decide (j = first)
  view := View.idle
  own := if j = first then some (bootOwn start disk base) else none

omit [Fintype ι] in
theorem bootPool_meets {disk base : Nat → Block} (R : Recoverable start size disk base)
    (first j : ι) :
    Meets start size (bootPool first j : Code RX Unit) (bootLoc start disk base first j)
      (fun _ l => l.Fin) := by
  unfold bootPool bootLoc
  by_cases hj : j = first
  · simp only [hj, if_true, decide_true]
    refine Prog.wp_mono (boot_meets (v := View.idle) (g := bootOwn start disk base) rfl rfl rfl
      R.fits rfl R.copied) ?_
    rintro x l rfl
    exact ⟨rfl, rfl⟩
  · simp only [hj, if_false, decide_false]
    exact ⟨rfl, rfl⟩

/-- The ghost logic of the log layer over disciplined clients, for runs that start with
`disk`. -/
def logic (first : ι) (calls : ι → Client RX → Prop) (disk : Nat → Block)
    (disc : ∀ i c, calls i c → Disciplined start size c) : Logic (sys execX first calls) Loc where
  inv tr s L := PoolInv start size (hist start disk tr) s L
  pre := pre start size
  post := actPost start size
  fin := Loc.Fin
  run_sound := by
    intro tr s L i a r s' I h step
    obtain ⟨l, hpost, I'⟩ := act_sound execX I h step
    exact ⟨l, hpost, by simpa [hist, List.foldl_append, sys] using I'⟩
  call_sound := by
    rintro tr s L i p I idle ⟨up, c, hc, rfl⟩
    refine ⟨⟨true, View.idle, none⟩, ?_, start_sound I up idle⟩
    refine Prog.wp_mono (client_meets (disc i c hc)) ?_
    rintro x l ⟨v, rfl, rfl⟩
    exact ⟨rfl, rfl⟩
  env_sound := by
    intro tr s L th o s' th' I verified moves
    cases moves with
    | recycle free unpinned => exact ⟨L, by simpa using I.recycle free unpinned, verified⟩
    | @crash t =>
      have R := I.recoverable
      refine ⟨bootLoc start s.disk (hist start disk tr).base first, ?_, bootPool_meets R first⟩
      rw [I.geom.1, I.geom.2, hist_snoc]
      exact Inv.reboot R first t

end Pool

section Main

variable {ι X T : Type} {RX : X → Type} [Fintype ι] [DecidableEq ι]
variable {execX : ι → (x : X) → T → RX x → T → Prop} {first : ι} {calls : ι → Client RX → Prop}
variable {start size : Nat} {disk : Nat → Block} {t : T} {tr : List Ev} {s : St ι T}
variable {th : ι → Code RX Unit}

theorem recoverable_of_head {disk : Nat → Block} (empty : headN (disk start) = 0) :
    Recoverable start size disk disk := by
  have hnil := getHead_eq_nil empty
  refine ⟨by rw [hnil]; exact Fits.nil, fun j b _ _ => ?_, fun b _ _ => rfl⟩
  simp_all

/-- The invariant in every configuration of every run. -/
theorem reach_inv (disc : ∀ i c, calls i c → Disciplined start size c)
    (empty : headN (disk start) = 0)
    (run : (sys execX first calls).Reach (reboot start size disk t) (bootPool first) tr s th) :
    ∃ L, PoolInv start size (hist start disk tr) s L ∧
      ∀ i, Meets start size (th i) (L i) (fun _ l => l.Fin) := by
  have R : Recoverable start size disk disk := recoverable_of_head empty
  have start_inv : PoolInv start size (hist start disk []) (reboot start size disk t)
      (bootLoc start disk disk first) := Inv.reboot R first t
  exact (logic execX first calls disk disc).reach_inv start_inv (bootPool_meets R first) run

variable (execX first calls) in
omit [Fintype ι] in
/-- A boot on an empty header gets to its last step. -/
theorem boot_can (t : T) (empty : headN (disk start) = 0) :
    (sys execX first calls).Can first (reboot start size disk t) boot fun _ s p =>
      p = .act .ready .ret ∧ s.hold = (fun _ => none) ∧
        s.log = { start := start, size := size, outstanding := 0, committing := false, lh := [] } := by
  have hnil := getHead_eq_nil empty
  refine .step _ ⟨rfl, rfl⟩ ?_
  refine .step (some 0) ⟨rfl, by simp [reboot], rfl⟩ ?_
  refine .step (disk start) ⟨start, rfl, rfl, rfl⟩ ?_
  refine .step () rfl ?_
  dsimp only
  rw [hnil]
  refine .step () ⟨start, rfl, rfl⟩ ?_
  -- `install_trans` finds `lh.n = 0`; then the empty header is written back
  refine .step _ ⟨rfl, rfl⟩ ?_
  refine .step () rfl ?_
  refine .step _ ⟨rfl, rfl⟩ ?_
  refine .step (some 0) ⟨rfl, by simp [reboot], rfl⟩ ?_
  refine .step (disk start) ⟨start, rfl, rfl, rfl⟩ ?_
  refine .step () ⟨start, rfl, rfl⟩ ?_
  refine .step () ⟨start, rfl, rfl⟩ ?_
  refine .step () ⟨start, rfl, rfl⟩ ?_
  exact .done ⟨rfl, by simp [reboot], rfl⟩

variable (execX first calls size) in
omit [Fintype ι] in
theorem boot_reaches_ready (t : T) (empty : headN (disk start) = 0) :
    ∃ tr s, (sys execX first calls).Reach (reboot start size disk t) (bootPool first) tr s
        (Function.update (bootPool first) first (.act .ready .ret)) ∧ s.hold = (fun _ => none) ∧
      s.log = { start := start, size := size, outstanding := 0, committing := false, lh := [] } := by
  have begins : (sys execX first calls).Reach (reboot start size disk t) (bootPool first) []
      (reboot start size disk t) (bootPool first) := .init
  obtain ⟨o, s, p, ⟨rfl, h⟩, run⟩ := (boot_can execX first calls t empty).reach begins
    (by simp [bootPool])
  exact ⟨_, s, run, h⟩

/-- Clients that use nothing but the block layer. -/
def noAux (_ : Fin 4) (x : Empty) (_ : Unit) (_ : x.elim) (_ : Unit) : Prop := False

/-- The disk as `mkfs` starts it. -/
def blankDisk : Nat → Block := fun _ => Bytes.Buffer.zero

end Main

end Xv6.Log
