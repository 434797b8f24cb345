import Xv6.Process.Kin

/-!
# Every run of the machine

The invariant holds at boot and along every run, with any number of CPUs and processes, whatever
the processes call and whenever interrupts come.
-/

namespace Xv6.Process

open Interleave

variable {n : Nat} {κ : Type} [DecidableEq κ] {initproc : Fin n}
variable {s s' : St n κ} {L : Thread n κ → Gh n κ} {i t : Thread n κ} {c : κ} {a : Act n}
variable {r : Res a} {tr : List (Ev n κ)} {p : Fin n}

theorem Inv.step (h : Inv initproc tr s L) (ok : pre initproc a (L i)) (hc : s.running c = i)
    (hx : cpuExec c a s r s') :
    Inv initproc (tr ++ obs i a s) s' (Function.update L i (next initproc a (L i) r)) :=
  ⟨h.locks_step ok hc hx, h.places_step ok hc hx, h.states_step ok hc hx, h.family_step ok hc hx,
    h.record_step ok hc hx, h.adopted_step ok hc hx⟩

/-- The answers of the machine are what the ghost state says. -/
theorem Inv.tells (h : Inv initproc tr s L) (hc : s.running c = i) (hx : cpuExec c a s r s') :
    tells a (L i) r := by
  subst hc
  obtain ⟨K, P, S, F, -, A⟩ := h
  cases a with
  | holding lk =>
    obtain ⟨rfl, -⟩ := hx
    exact decide_eq_true_iff.trans (K.holds lk c)
  | mycpu =>
    obtain ⟨rfl, -⟩ := hx
    refine ⟨K.depth c, fun pos => K.quiet c (by rwa [K.depth c]), ?_⟩
    rw [P.me]
    cases hr : s.running c with
    | proc p => exact (P.busy c p hr).1
    | cpu d =>
      obtain rfl := K.home c d hr
      exact P.free d hr
  | read p =>
    obtain ⟨rfl, -⟩ := hx
    constructor
    · intro me
      have hr : s.running c = .proc p := (P.me _).symm.trans me
      rw [hr]
      rcases S.executes c p hr with ⟨own, run⟩ | ⟨st, own, -, state, -⟩
      · rw [own]
        exact run
      · rw [own]
        exact state
    · intro wait clear q me
      have hr : s.running c = .proc q := (P.me _).symm.trans me
      rw [hr] at wait clear
      exact (F.knows c q hr wait).clear p clear
  | info p i =>
    obtain ⟨rfl, -⟩ := hx
    intro me own known
    have hr : s.running c = .proc p := (P.me _).symm.trans me
    rw [hr] at own known
    have live : Live (s.proc p).state := by
      rcases S.executes c p hr with ⟨-, run⟩ | ⟨st, set, -⟩
      · exact Or.inr (Or.inr run)
      · exact absurd (own.symm.trans set) nofun
    cases i with
    | parent => exact A p known live
    | _ => trivial
  | _ => trivial

omit [DecidableEq κ] in
/-- A thread that can be interrupted is in no critical section. -/
theorem Inv.interruptible (h : Inv initproc tr s L) (hc : s.running c = i) (on : (s.cpu c).intr = true) :
    (L i).Interruptible := by
  subst hc
  obtain ⟨K, P, S, F, -⟩ := h
  have off : (L (s.running c)).off = 0 := by
    by_contra busy
    have deep : 0 < (s.cpu c).noff := by
      rw [K.depth c]
      exact Nat.pos_of_ne_zero busy
    rw [K.quiet c deep] at on
    cases on
  have held : (L (s.running c)).held = [] := List.eq_nil_of_length_eq_zero (Nat.le_zero.mp (off ▸ K.room c))
  have alone : ∀ p, (L (s.running c)).held ≠ [.proc p] := by
    intro p
    rw [held]
    nofun
  refine ⟨held, off, ?_, ?_, ?_, fun p me => ?_⟩
  · cases hr : s.running c with
    | proc p => exact (P.plain p).1
    | cpu d =>
      refine Option.eq_none_iff_forall_ne_some.mpr fun p slot => alone p ?_
      rw [hr]
      exact P.slotted d p slot
  · cases hr : s.running c with
    | proc p => exact (P.plain p).2
    | cpu d =>
      refine Option.eq_none_iff_forall_ne_some.mpr fun p pick => alone p ?_
      rw [hr]
      exact P.picked d p pick
  · refine Option.eq_none_iff_forall_ne_some.mpr fun x seen => ?_
    have mem := (S.seen c x seen).1
    rw [held] at mem
    cases mem
  · have hr : s.running c = .proc p := (P.me _).symm.trans me
    rw [hr] at held ⊢
    constructor
    · rcases S.executes c p hr with ⟨own, -⟩ | ⟨st, -, -, -, mem⟩
      · exact own
      · rw [held] at mem
        cases mem
    · intro fall
      have mem := (F.falls p fall).2
      rw [held] at mem
      cases mem

/-! ## A new process gets its context -/

section Context

/-- The ghost states when `t` has given its child `p` a context. -/
def contexts (L : Thread n κ → Gh n κ) (t : Thread n κ) (p : Fin n) : Thread n κ → Gh n κ :=
  Function.update (Function.update L t { L t with child := some (p, true) }) (.proc p) (Gh.fresh p)

theorem contexts_self : contexts L t p (.proc p) = Gh.fresh p := Function.update_self _ _ _

theorem contexts_field {β : Type} (f : Gh n κ → β) (same : f { L t with child := some (p, true) } = f (L t))
    {u : Thread n κ} (other : u ≠ .proc p) : f (contexts L t p u) = f (L u) := by
  rw [contexts, Function.update_of_ne other]
  exact field_update same u

/-- Whose child is whose stays; only `p` is ready now. -/
theorem contexts_child {u : Thread n κ} {q : Fin n} {b : Bool}
    (h : (contexts L t p u).child = some (q, b)) :
    (u = t ∧ q = p ∧ b = true) ∨ (u ≠ t ∧ u ≠ .proc p ∧ (L u).child = some (q, b)) := by
  by_cases new : u = .proc p
  · rw [new, contexts_self] at h
    cases h
  · rw [contexts, Function.update_of_ne new] at h
    by_cases self : u = t
    · rw [self, Function.update_self] at h
      obtain ⟨rfl, rfl⟩ := Prod.mk.inj (Option.some.inj h)
      exact Or.inl ⟨self, rfl, rfl⟩
    · rw [Function.update_of_ne self] at h
      exact Or.inr ⟨self, new, h⟩

/-- Threads that CPUs execute on notice only that the child is ready. -/
theorem contexts_running (idle : ∀ d, s.running d ≠ .proc p) (d : κ) :
    (contexts L t p (s.running d)).held = (L (s.running d)).held ∧
      (contexts L t p (s.running d)).off = (L (s.running d)).off ∧
      (contexts L t p (s.running d)).seen = (L (s.running d)).seen ∧
      (contexts L t p (s.running d)).fam = (L (s.running d)).fam ∧
      (contexts L t p (s.running d)).own = (L (s.running d)).own :=
  ⟨contexts_field Gh.held rfl (idle d), contexts_field Gh.off rfl (idle d), contexts_field Gh.seen rfl (idle d),
    contexts_field Gh.fam rfl (idle d), contexts_field Gh.own rfl (idle d)⟩

/-- Schedulers do not notice. -/
theorem contexts_cpu (d : κ) : (contexts L t p (.cpu d)).held = (L (.cpu d)).held ∧
    (contexts L t p (.cpu d)).off = (L (.cpu d)).off ∧ (contexts L t p (.cpu d)).slot = (L (.cpu d)).slot ∧
    (contexts L t p (.cpu d)).pick = (L (.cpu d)).pick ∧ (contexts L t p (.cpu d)).seen = (L (.cpu d)).seen :=
  ⟨contexts_field Gh.held rfl nofun, contexts_field Gh.off rfl nofun, contexts_field Gh.slot rfl nofun,
    contexts_field Gh.pick rfl nofun, contexts_field Gh.seen rfl nofun⟩

theorem Locks.setContext (K : Locks s L) (idle : ∀ d, s.running d ≠ .proc p) {pc : Fin n → Label} :
    Locks { s with pc := pc } (contexts L t p) := by
  have held := fun d => (contexts_running (L := L) (t := t) idle d).1
  have off := fun d => (contexts_running (L := L) (t := t) idle d).2.1
  refine ⟨K.inj, K.home, fun lk d => ?_, fun d => ?_, fun d => ?_, fun d => ?_, K.quiet⟩
  · rw [held]
    exact K.holds lk d
  · rw [held]
    exact K.nodup d
  · rw [off]
    exact K.depth d
  · rw [held, off]
    exact K.room d

theorem Places.setContext (P : Places s L) :
    Places { s with pc := Function.update s.pc p .user } (contexts L t p) := by
  have cpu := contexts_cpu (L := L) (t := t) (p := p)
  refine ⟨fun u => ?_, fun q => ?_, fun d q hd => ?_, fun d hd => ?_, fun d q hd => ?_, fun d q hd => ?_, fun q => ?_⟩
  · by_cases new : u = .proc p
    · rw [new, contexts_self]
      rfl
    · rw [contexts_field Gh.me rfl new]
      exact P.me u
  · by_cases new : q = p
    · subst new
      rw [contexts_self]
      exact (Function.update_self q Label.user s.pc).symm
    · rw [contexts_field Gh.pc rfl fun e => new (Thread.proc.inj e)]
      exact (P.label q).trans (Function.update_of_ne new _ _).symm
  · obtain ⟨proc, held, off, slot, pick, seen⟩ := P.busy d q hd
    obtain ⟨held', off', slot', pick', seen'⟩ := cpu d
    exact ⟨proc, held'.trans held, off'.trans off, slot'.trans slot, pick'.trans pick, seen'.trans seen⟩
  · rw [(cpu d).2.2.1]
    exact P.free d hd
  · rw [(cpu d).2.2.1] at hd
    rw [(cpu d).1]
    exact P.slotted d q hd
  · rw [(cpu d).2.2.2.1] at hd
    rw [(cpu d).1]
    exact P.picked d q hd
  · by_cases new : q = p
    · subst new
      rw [contexts_self]
      exact ⟨rfl, rfl⟩
    · have other : (Thread.proc q : Thread n κ) ≠ .proc p := fun e => new (Thread.proc.inj e)
      rw [contexts_field Gh.slot rfl other, contexts_field Gh.pick rfl other]
      exact P.plain q

theorem States.setContext (S : States s L) (child : (L t).child = some (p, false))
    (idle : ∀ d, s.running d ≠ .proc p) {pc : Fin n → Label} : States { s with pc := pc } (contexts L t p) := by
  have used := (S.child t p false child).1
  have running := contexts_running (s := s) (L := L) (t := t) idle
  have cpu := contexts_cpu (L := L) (t := t) (p := p)
  refine ⟨fun d q hd => ?_, fun q hq live => ?_, fun q hq => ?_, fun d q hd => ?_, fun d x hx => ?_,
    fun u q b hu => ?_, fun u v q b e hu hv => ?_⟩
  · obtain ⟨held, -, -, -, own⟩ := running d
    rw [show s.running d = .proc q from hd] at held own
    rw [Executes, held, own]
    exact S.executes d q hd
  · have other : (Thread.proc q : Thread n κ) ≠ .proc p := by
      rintro e
      obtain rfl := Thread.proc.inj e
      exact not_live (Or.inr (Or.inl used)) live
    obtain ⟨held, off, own, seen⟩ := S.parked q hq live
    exact ⟨(contexts_field Gh.held rfl other).trans held, (contexts_field Gh.off rfl other).trans off,
      (contexts_field Gh.own rfl other).trans own, (contexts_field Gh.seen rfl other).trans seen⟩
  · rcases S.marked q hq with here | ⟨d, hd⟩
    · exact Or.inl here
    · exact Or.inr ⟨d, (cpu d).2.2.2.1.trans hd⟩
  · exact S.picks d q ((cpu d).2.2.2.1.symm.trans hd)
  · obtain ⟨held, -, seen, -, -⟩ := running d
    rw [held]
    exact S.seen d x (seen.symm.trans hx)
  · rcases contexts_child hu with ⟨-, rfl, rfl⟩ | ⟨-, -, old⟩
    · exact ⟨used, fun _ => contexts_self⟩
    · obtain ⟨state, fresh⟩ := S.child u q b old
      refine ⟨state, fun ready => ?_⟩
      by_cases new : q = p
      · subst new
        exact contexts_self
      · have same := fresh ready
        have other : Thread.proc q ≠ t := by
          rintro rfl
          rw [same] at child
          cases child
        rw [contexts, Function.update_of_ne fun e => new (Thread.proc.inj e), Function.update_of_ne other, same]
  · rcases contexts_child hu with ⟨rfl, rfl, -⟩ | ⟨-, -, oldu⟩
    · rcases contexts_child hv with ⟨rfl, -, -⟩ | ⟨-, -, oldv⟩
      · rfl
      · exact S.only _ _ q false e child oldv
    · rcases contexts_child hv with ⟨rfl, rfl, -⟩ | ⟨-, -, oldv⟩
      · exact S.only _ _ q b false oldu child
      · exact S.only u v q b e oldu oldv

theorem Family.setContext (F : Family initproc s L) (S : States s L) (child : (L t).child = some (p, false))
    (idle : ∀ d, s.running d ≠ .proc p) {pc : Fin n → Label} :
    Family initproc { s with pc := pc } (contexts L t p) := by
  have used := (S.child t p false child).1
  have running := contexts_running (s := s) (L := L) (t := t) idle
  have fall : ∀ q, (contexts L t p (.proc q)).fam.fall → .proc q ≠ (Thread.proc p : Thread n κ) ∧ (L (.proc q)).fam.fall := by
    intro q h
    have other : (Thread.proc q : Thread n κ) ≠ .proc p := by
      intro e
      rw [e, contexts_self] at h
      exact h
    rw [contexts_field Gh.fam rfl other] at h
    exact ⟨other, h⟩
  have doze : ∀ q, Dozes { s with pc := pc } (contexts L t p) q → Dozes s L q := by
    rintro q (h | h)
    · exact Or.inl h
    · exact Or.inr (fall q h).2
  refine ⟨fun q live => ?_, F.still, F.parents, F.orphan, F.init, fun u q b hu m hm => ?_, fun q hq => ?_,
    fun q m hq hm dead => ?_, fun d q hd hw => ?_⟩
  · have other : (Thread.proc q : Thread n κ) ≠ .proc p := by
      intro e
      obtain rfl := Thread.proc.inj e
      exact not_live (Or.inr (Or.inl used)) live
    rw [contexts_field Gh.chan rfl other]
    exact F.chan q live
  · rcases contexts_child hu with ⟨rfl, rfl, -⟩ | ⟨-, -, old⟩
    · exact F.young _ q false child m hm
    · exact F.young u q b old m hm
  · obtain ⟨other, old⟩ := fall q hq
    rw [contexts_field Gh.held rfl other]
    exact F.falls q old
  · obtain ⟨init, d, mem, due⟩ := F.asleep q m (doze q hq) hm dead
    obtain ⟨held, -, -, fam, -⟩ := running d
    exact ⟨init, d, held ▸ mem, fam ▸ due⟩
  · obtain ⟨held, -, -, fam, -⟩ := running d
    rw [show s.running d = .proc q from hd] at held fam
    rw [held] at hw
    exact (F.knows d q hd hw).mono (by rw [fam]; exact ⟨rfl, rfl, rfl, rfl⟩) (fun m hm => Or.inl (fam ▸ hm))
      (fun _ => rfl) doze fun _ => id

theorem Record.setContext (R : Record tr s L) (S : States s L) (child : (L t).child = some (p, false))
    {pc : Fin n → Label} : Record tr { s with pc := pc } (contexts L t p) := by
  have used := (S.child t p false child).1
  have clean := R.clean p (not_live (Or.inr (Or.inl used)))
  have reaped : ∀ q, (contexts L t p (.proc q)).reaped = (L (.proc q)).reaped := by
    intro q
    by_cases new : q = p
    · subst new
      rw [contexts_self, clean]
      rfl
    · exact contexts_field Gh.reaped rfl fun e => new (Thread.proc.inj e)
  refine ⟨R.orderly, R.pend, fun q => ?_, fun q dead => ?_, fun u q b hu => ?_, fun u pid hu => ?_, R.forks⟩
  · rw [reaped]
    exact R.owed q
  · rw [reaped]
    exact R.clean q dead
  · rcases contexts_child hu with ⟨rfl, rfl, -⟩ | ⟨-, -, old⟩
    · exact R.born _ q false child
    · exact R.born u q b old
  · have other : u ≠ .proc p := by
      rintro rfl
      rw [contexts_self] at hu
      cases hu
    rw [contexts_field Gh.newpid rfl other] at hu
    exact R.named u pid hu

theorem Adopted.setContext (A : Adopted s L) {pc : Fin n → Label} : Adopted { s with pc := pc } (contexts L t p) := by
  intro q known live
  by_cases new : q = p
  · rw [new, contexts_self] at known
    cases known
  · rw [contexts_field Gh.adopted rfl fun e => new (Thread.proc.inj e)] at known
    exact A q known live

end Context

/-! ## The proof rules are sound -/

/-- `t` executes its `setContext`. -/
theorem Inv.setContext (h : Inv initproc tr s L) (child : (L t).child = some (p, false)) :
    Inv initproc tr { s with pc := Function.update s.pc p .user } (contexts L t p) := by
  obtain ⟨K, P, S, F, R, A⟩ := h
  have idle : ∀ d, s.running d ≠ .proc p :=
    fun d hd => (S.executes d p hd).not_embryo.1 (S.child t p false child).1
  exact ⟨K.setContext idle, P.setContext, S.setContext child idle, F.setContext S child idle, R.setContext S child,
    A.setContext⟩

/-- A thread without code goes on with what the kernel has for it. -/
theorem Inv.calls_wp (h : Inv initproc tr s L) (done : fin (L i)) {code : Code n Unit}
    (next : calls initproc i s code) : code.wp (pre initproc) (post initproc) (L i) (fun _ l => fin l) := by
  obtain ⟨own, child, reaped, slot, pick, chan, seen, fall, place⟩ := done
  have me := h.places.me i
  cases i with
  | cpu c =>
    obtain ⟨-, rfl⟩ := next
    rw [me] at place
    exact scheduler_wp (c := c) ⟨me, own, slot, pick, seen, chan, fall, place.1, place.2, child, reaped⟩
  | proc p =>
    obtain ⟨-, next⟩ := next
    have label := h.places.label p
    rw [me, label] at place
    have plain : (L (.proc p)).Plain p := ⟨me, own, slot, pick, seen, chan, fall⟩
    cases at_ : s.pc p with
    | user =>
      rw [at_] at next place
      obtain ⟨trap, ok, rfl⟩ := next
      exact usertrap_wp ⟨plain, place.1, place.2, child, reaped⟩ ok
    | trapEnd =>
      rw [at_] at next place
      obtain ⟨close, ok, rfl⟩ := next
      exact trapEnd_wp ⟨plain, place.1, place.2, child, reaped⟩ ok
    | waitLoop addr =>
      rw [at_] at next place label
      subst next
      exact waitFrom_wp ⟨plain, place.1, place.2.1, child, reaped, place.2.2, Set.empty_subset _⟩
        fun q away => absurd (List.mem_finRange q) away

theorem disciplined_nothing {may : Leave} : Client.Disciplined may (pure ()) := rfl

/-- What the environment does to the machine and the ghost states: it interrupts a thread or gives a
new process its context. -/
def EnvMoves (s : St n κ) (L : Thread n κ → Gh n κ) (s' : St n κ) (L' : Thread n κ → Gh n κ) : Prop :=
  (∃ c x, s' = s.setCpu c x ∧ L' = L) ∨
    ∃ t p, (L t).child = some (p, false) ∧ s' = { s with pc := Function.update s.pc p .user } ∧
      L' = contexts L t p

/-- Interrupts and new contexts keep the invariant and leave every thread verified. -/
theorem Inv.env (h : Inv initproc tr s L) {th th' : Thread n κ → Code n Unit} {o : List (Ev n κ)}
    (verified : ∀ i, (th i).wp (pre initproc) (post initproc) (L i) (fun _ l => fin l)) (moves : Env s th o s' th') :
    ∃ L', Inv initproc (tr ++ o) s' L' ∧ (o = [] ∧ EnvMoves s L s' L') ∧
      ∀ i, (th' i).wp (pre initproc) (post initproc) (L' i) (fun _ l => fin l) := by
  cases moves with
  | @interrupt c t a k handler timer running on code ok =>
    refine ⟨L, ?_, ⟨rfl, Or.inl ⟨c, _, rfl, rfl⟩⟩, fun j => ?_⟩
    · have step := h.step (a := .intrOff) (r := ()) trivial running rfl
      rwa [show next initproc .intrOff (L t) () = L t from rfl, Function.update_eq_self] at step
    · by_cases here : j = t
      · subst here
        have trap : Does initproc (kerneltrap (L j).me.slot handler timer) (L j) (L j) :=
          kerneltrap_does (h.interruptible running on) ok
        rw [h.places.me j] at trap
        rw [Function.update_self]
        exact trap.then fun _ => verified j
      · rw [Function.update_of_ne here]
        exact verified j
  | @setContext c t p k running code =>
    have start := verified t
    rw [code] at start
    obtain ⟨⟨child, -⟩, rest⟩ := start
    rw [List.append_nil]
    refine ⟨contexts L t p, h.setContext child, ⟨rfl, Or.inr ⟨t, p, child, rfl, rfl⟩⟩, fun j => ?_⟩
    by_cases new : j = .proc p
    · subst new
      rw [Function.update_self, contexts_self]
      exact forkret_wp disciplined_nothing
    · rw [contexts, Function.update_of_ne new, Function.update_of_ne new]
      by_cases here : j = t
      · subst here
        rw [Function.update_self, Function.update_self]
        exact rest () _ ⟨trivial, rfl⟩
      · rw [Function.update_of_ne here, Function.update_of_ne here]
        exact verified j

noncomputable def logic (initproc : Fin n) :
    Logic (sys initproc : Sys (Thread n κ) (Act n) Res (St n κ) (Ev n κ)) (Gh n κ) where
  inv := Inv initproc
  pre := pre initproc
  post := post initproc
  fin := fin
  run_sound h ok hx := by
    obtain ⟨c, hc, hx⟩ := hx
    exact ⟨_, ⟨h.tells hc hx, rfl⟩, h.step ok hc hx⟩
  call_sound h done next := by
    refine ⟨_, h.calls_wp done next, ?_⟩
    rw [Function.update_eq_self]
    exact h
  env_sound h verified moves := by
    obtain ⟨L', h', -, verified'⟩ := h.env verified moves
    exact ⟨L', h', verified'⟩

/-! ## Boot -/

/-- A thread that has not started. -/
def Gh.idle (t : Thread n κ) : Gh n κ where
  me := t
  held := []
  off := 0
  own := .run
  slot := none
  pick := none
  seen := none
  child := none
  newpid := none
  chan := none
  pc := .user
  reaped := none
  fam := .blank
  adopted := false

def bootGh (initproc : Fin n) : Thread n κ → Gh n κ
  | .proc p => if p = initproc then .fresh p else .idle (.proc p)
  | .cpu c => .idle (.cpu c)

section Boot

omit [DecidableEq κ]

/-- At boot every process but the first is unused. -/
theorem boot_cases (κ : Type) (initproc p : Fin n) :
    (p = initproc ∧ (boot initproc : St n κ).proc p = Proc.first ∧
      bootGh initproc (.proc p) = (Gh.fresh p : Gh n κ)) ∨
    (p ≠ initproc ∧ (boot initproc : St n κ).proc p = Proc.freed ∧
      bootGh initproc (.proc p) = (Gh.idle (.proc p) : Gh n κ)) := by
  by_cases h : p = initproc
  · exact Or.inl ⟨h, if_pos h, if_pos h⟩
  · exact Or.inr ⟨h, if_neg h, if_neg h⟩

/-- At boot nobody has a child or has reaped one, and nobody is about to sleep. -/
theorem bootGh_plain (initproc : Fin n) (t : Thread n κ) : (bootGh initproc t).child = none ∧
    (bootGh initproc t).newpid = none ∧ (bootGh initproc t).reaped = none ∧ (bootGh initproc t).chan = none ∧
    (bootGh initproc t).fam = Fam.blank := by
  cases t with
  | cpu c => exact ⟨rfl, rfl, rfl, rfl, rfl⟩
  | proc p => rcases boot_cases κ initproc p with ⟨-, -, h⟩ | ⟨-, -, h⟩ <;> rw [h] <;> exact ⟨rfl, rfl, rfl, rfl, rfl⟩

theorem boot_locks (initproc : Fin n) : Locks (boot initproc : St n κ) (bootGh initproc) where
  inj _ _ h := Thread.cpu.inj h
  home _ _ h := (Thread.cpu.inj h).symm
  holds _ _ := ⟨nofun, nofun⟩
  nodup _ := List.nodup_nil
  depth _ := rfl
  room _ := Nat.le_refl 0
  quiet _ _ := rfl

theorem boot_places (initproc : Fin n) : Places (boot initproc : St n κ) (bootGh initproc) := by
  refine ⟨fun t => ?_, fun p => ?_, nofun, fun c _ => rfl, nofun, nofun, fun p => ?_⟩
  · cases t with
    | cpu c => rfl
    | proc p => rcases boot_cases κ initproc p with ⟨-, -, h⟩ | ⟨-, -, h⟩ <;> rw [h] <;> rfl
  · rcases boot_cases κ initproc p with ⟨-, -, h⟩ | ⟨-, -, h⟩ <;> rw [h] <;> rfl
  · rcases boot_cases κ initproc p with ⟨-, -, h⟩ | ⟨-, -, h⟩ <;> rw [h] <;> exact ⟨rfl, rfl⟩

theorem boot_states (initproc : Fin n) : States (boot initproc : St n κ) (bootGh initproc) := by
  refine ⟨nofun, fun p _ live => ?_, fun p run => ?_, nofun, nofun, fun t p b ht => ?_, fun t u p b d ht => ?_⟩
  · rcases boot_cases κ initproc p with ⟨-, -, h⟩ | ⟨-, unused, -⟩
    · rw [h]
      exact ⟨rfl, rfl, rfl, rfl⟩
    · rw [unused] at live
      exact absurd live (not_live (Or.inl rfl))
  · rcases boot_cases κ initproc p with ⟨-, h, -⟩ | ⟨-, h, -⟩ <;> rw [h] at run <;> cases run
  · rw [(bootGh_plain initproc t).1] at ht
    cases ht
  · rw [(bootGh_plain initproc t).1] at ht
    cases ht

theorem boot_family (initproc : Fin n) : Family initproc (boot initproc : St n κ) (bootGh initproc) := by
  have chan : ∀ p, ((boot initproc : St n κ).proc p).chan = none ∧ ((boot initproc : St n κ).proc p).parent = none := by
    intro p
    rcases boot_cases κ initproc p with ⟨-, h, -⟩ | ⟨-, h, -⟩ <;> rw [h] <;> exact ⟨rfl, rfl⟩
  have orphan : ∀ p q, ((boot initproc : St n κ).proc p).parent ≠ some q := by
    intro p q h
    rw [(chan p).2] at h
    cases h
  refine ⟨fun p _ => ?_, fun p _ => (chan p).1, fun p q h => absurd h (orphan p q), fun p _ => (chan p).2, ?_,
    fun t p b _ q h => absurd h (orphan p q), fun p h => ?_, fun p q _ h => absurd h (orphan q p), nofun⟩
  · rw [(chan p).1, (bootGh_plain initproc _).2.2.2.1]
  · rcases boot_cases κ initproc initproc with ⟨-, h, -⟩ | ⟨h, -, -⟩
    · rw [h]
      exact Or.inr (Or.inl rfl)
    · exact absurd rfl h
  · rw [(bootGh_plain initproc _).2.2.2.2] at h
    exact h.elim

theorem boot_record (initproc : Fin n) : Record [] (boot initproc : St n κ) (bootGh initproc) := by
  refine ⟨fun before e after h => ?_, fun p => ?_, fun p => ?_, fun p _ => ?_, fun t p b ht => ?_, fun t pid ht => ?_,
    nofun⟩
  · simp at h
  · rcases boot_cases κ initproc p with ⟨-, h, -⟩ | ⟨-, h, -⟩ <;> rw [h] <;> rfl
  · rw [(bootGh_plain initproc _).2.2.1]
    rfl
  · exact (bootGh_plain initproc _).2.2.1
  · rw [(bootGh_plain initproc t).1] at ht
    cases ht
  · rw [(bootGh_plain initproc t).2.1] at ht
    cases ht

theorem boot_adopted (initproc : Fin n) : Adopted (boot initproc : St n κ) (bootGh initproc) := by
  intro p known
  rcases boot_cases κ initproc p with ⟨-, -, h⟩ | ⟨-, -, h⟩ <;> rw [h] at known <;> cases known

theorem boot_inv (initproc : Fin n) : Inv initproc [] (boot initproc : St n κ) (bootGh initproc) :=
  ⟨boot_locks initproc, boot_places initproc, boot_states initproc, boot_family initproc, boot_record initproc,
    boot_adopted initproc⟩

end Boot

theorem bootPool_verified {fsinit : Client} (ok : fsinit.Disciplined .sleep) :
    (logic initproc).Verified (bootPool initproc fsinit : Thread n κ → Code n Unit) (bootGh initproc) := by
  intro t
  cases t with
  | cpu c => exact ⟨rfl, rfl, rfl, rfl, rfl, rfl, rfl, id, rfl, rfl⟩
  | proc p =>
    by_cases h : p = initproc
    · rw [bootPool, if_pos h, bootGh, if_pos h]
      exact forkret_wp ok
    · rw [bootPool, if_neg h, bootGh, if_neg h]
      exact ⟨rfl, rfl, rfl, rfl, rfl, rfl, rfl, id, rfl, rfl⟩

theorem reach_inv {fsinit : Client} (ok : fsinit.Disciplined .sleep) {th : Thread n κ → Code n Unit}
    (run : (sys initproc).Reach (boot initproc) (bootPool initproc fsinit) tr s th) :
    ∃ L, Inv initproc tr s L ∧ (logic initproc).Verified th L :=
  (logic initproc).reach_inv (boot_inv initproc) (bootPool_verified ok) run

/-! ## More invariants -/

/-- `X` is kept by every action that meets `cond`, and by the environment. -/
structure Keeps (initproc : Fin n) (cond : Thread n κ → Act n → St n κ → Prop)
    (X : List (Ev n κ) → St n κ → (Thread n κ → Gh n κ) → Prop) : Prop where
  step : ∀ {tr s L i c a r s'}, Inv initproc tr s L → X tr s L → pre initproc a (L i) → cond i a s →
    s.running c = i → cpuExec c a s r s' → X (tr ++ obs i a s) s' (Function.update L i (next initproc a (L i) r))
  env : ∀ {tr s L s' L'}, Inv initproc tr s L → X tr s L → EnvMoves s L s' L' → X tr s' L'

section Keeps

variable {cond : Thread n κ → Act n → St n κ → Prop} {X : List (Ev n κ) → St n κ → (Thread n κ → Gh n κ) → Prop}

noncomputable def Keeps.rules (K : Keeps initproc cond X) : Logic ((sys initproc).restrict cond) (Gh n κ) where
  inv tr s L := Inv initproc tr s L ∧ X tr s L
  pre := pre initproc
  post := post initproc
  fin := fin
  run_sound h ok hx := by
    obtain ⟨inv, x⟩ := h
    obtain ⟨meets, c, hc, hx⟩ := hx
    exact ⟨_, ⟨inv.tells hc hx, rfl⟩, inv.step ok hc hx, K.step inv x ok meets hc hx⟩
  call_sound h done next := by
    refine ⟨_, h.1.calls_wp done next, ?_⟩
    rw [Function.update_eq_self]
    exact h
  env_sound h verified moves := by
    obtain ⟨inv, x⟩ := h
    obtain ⟨L', inv', ⟨rfl, shape⟩, verified'⟩ := inv.env verified moves
    refine ⟨L', ⟨inv', ?_⟩, verified'⟩
    rw [List.append_nil]
    exact K.env inv x shape

/-- A further invariant along every run whose actions meet `cond`. -/
theorem Keeps.reach (K : Keeps initproc cond X) (start : X [] (boot initproc) (bootGh initproc)) {fsinit : Client}
    (ok : fsinit.Disciplined .sleep) {th : Thread n κ → Code n Unit}
    (run : ((sys initproc).restrict cond).Reach (boot initproc) (bootPool initproc fsinit) tr s th) :
    ∃ L, Inv initproc tr s L ∧ X tr s L ∧ (logic initproc).Verified th L := by
  obtain ⟨L, ⟨inv, x⟩, verified⟩ := K.rules.reach_inv ⟨boot_inv initproc, start⟩ (bootPool_verified ok) run
  exact ⟨L, inv, x, verified⟩

end Keeps

/-! ## What a step does to a process -/

/-- How an action changes the record of process `q`, as far as `state`, `pid` and `killed` go. -/
inductive Change (s : St n κ) (a : Act n) (q : Fin n) (y : Proc n) : Prop where
  | keeps (pid : y.pid = (s.proc q).pid) (killed : y.killed = (s.proc q).killed)
      (unused : y.state = .unused ↔ (s.proc q).state = .unused) (live : Live (s.proc q).state → Live y.state)
  | exits (act : a = .setState q .zombie) (running : (s.proc q).state = .running)
      (becomes : y = { s.proc q with state := .zombie })
  | killed (act : a = .killOne (s.proc q).pid q) (becomes : y = (s.proc q).kill)
  | faults (act : a = .setKilled q) (running : (s.proc q).state = .running) (becomes : y = { s.proc q with killed := true })
  | claimed (act : a = .claim q) (unused : (s.proc q).state = .unused)
      (becomes : y = { s.proc q with pid := s.nextpid, state := .used, priority := 5 })
  | freed (act : a = .freeproc q) (dead : (s.proc q).state = .used ∨ (s.proc q).state = .zombie) (becomes : y = Proc.freed)

omit [DecidableEq κ] in
theorem Change.same {q : Fin n} {y : Proc n} (h : y = s.proc q) : Change s a q y := by
  subst h
  exact .keeps rfl rfl Iff.rfl id

omit [DecidableEq κ] in
/-- One record is replaced. -/
theorem Change.setProc {x : Proc n} (here : Change s a p x) (q : Fin n) : Change s a q ((s.setProc p x).proc q) := by
  by_cases self : q = p
  · subst self
    simpa [St.setProc] using here
  · exact .same (Function.update_of_ne self _ _)

theorem Inv.change (h : Inv initproc tr s L) (ok : pre initproc a (L i)) (hc : s.running c = i)
    (hx : cpuExec c a s r s') (q : Fin n) : Change s a q (s'.proc q) := by
  obtain ⟨K, P, S, F, -⟩ := h
  have runs : ∀ p, (L i).me = .proc p → (L i).own = .run → (s.proc p).state = .running := by
    intro p me own
    obtain rfl : i = .proc p := (P.me i).symm.trans me
    rcases S.executes c p hc with ⟨-, run⟩ | ⟨st, set, -⟩
    · exact run
    · exact absurd (own.symm.trans set) nofun
  cases a with
  | setState p st =>
    cases hx
    obtain ⟨me, -, own, choice⟩ := ok
    have run := runs p me own
    rcases choice with rfl | ⟨rfl, -⟩ | ⟨rfl, -⟩
    · refine .setProc ?_ q
      exact .keeps rfl rfl (by simp [run]) fun _ => Or.inr (Or.inl rfl)
    · refine .setProc ?_ q
      exact .keeps rfl rfl (by simp [run]) fun _ => Or.inl rfl
    · refine .setProc ?_ q
      exact .exits rfl run rfl
  | setRunning p =>
    cases hx
    obtain ⟨-, -, -, -, x, seen, rfl, runnable⟩ := ok
    have state := (S.sees hc seen).2.2.1.trans runnable
    refine .setProc ?_ q
    exact .keeps rfl rfl (by simp [state]) fun _ => Or.inr (Or.inr rfl)
  | setRunnable p =>
    cases hx
    have used := (S.child i p true ok.1).1
    refine .setProc ?_ q
    exact .keeps rfl rfl (by simp [used]) fun _ => Or.inr (Or.inl rfl)
  | claim p =>
    obtain ⟨rfl, rfl⟩ := hx
    obtain ⟨-, -, -, -, x, seen, rfl, unused⟩ := ok
    refine .setProc ?_ q
    exact .claimed rfl ((S.sees hc seen).2.2.1.trans unused) rfl
  | freeproc p =>
    cases hx
    refine .setProc (.freed rfl ?_ rfl) q
    rcases ok.2 with ⟨b, child⟩ | ⟨-, -, -, -, -, x, seen, rfl, zombie⟩
    · exact Or.inl (S.child i p b child).1
    · exact Or.inr ((S.sees hc seen).2.2.1.trans zombie)
  | setKilled p =>
    cases hx
    refine .setProc ?_ q
    exact .faults rfl (runs p ok.1 ok.2) rfl
  | setChan p _ | setPriority p _ | setXstate p _ | setParent p _ =>
    cases hx
    refine .setProc ?_ q
    exact .keeps rfl rfl Iff.rfl id
  | wakeOne chan p =>
    obtain ⟨-, rfl⟩ := hx
    refine .setProc ?_ q
    rw [Proc.woken]
    split
    · rename_i asleep
      exact .keeps rfl rfl (by simp [asleep.1]) fun _ => Or.inr (Or.inl rfl)
    · exact .same rfl
  | killOne pid p =>
    obtain ⟨-, -, rfl⟩ := hx
    split
    · rename_i hit
      subst hit
      refine .setProc ?_ q
      exact .killed rfl rfl
    · exact .same rfl
  | priorityOne pid priority p =>
    obtain ⟨-, -, rfl⟩ := hx
    split
    · refine .setProc ?_ q
      exact .keeps rfl rfl Iff.rfl id
    · exact .same rfl
  | setContext | panic => exact hx.elim
  | _ => exact .same (congrFun (cpuExec_proc hx rfl) q)

end Xv6.Process
