import Xv6.Process.Invariant

/-!
# Every action keeps the invariant

One theorem per part of the invariant. An action that does not touch a part leaves it as it is
(`congr`); the others are treated one by one.
-/

namespace Xv6.Process

open Interleave

variable {n : Nat} {κ : Type} [DecidableEq κ] {initproc : Fin n}
variable {s s' : St n κ} {L L' : Thread n κ → Gh n κ} {i : Thread n κ} {c d : κ} {a : Act n}
variable {r : Res a} {l : Gh n κ} {tr : List (Ev n κ)}

/-! ## Locks -/

omit [DecidableEq κ] in
theorem Locks.congr (h : Locks s L) (running : s'.running = s.running) (lock : s'.lock = s.lock)
    (noff : ∀ c, (s'.cpu c).noff = (s.cpu c).noff) (intr : ∀ c, (s'.cpu c).intr = (s.cpu c).intr)
    (held : ∀ t, (L' t).held = (L t).held) (off : ∀ t, (L' t).off = (L t).off) : Locks s' L' := by
  obtain ⟨inj, home, holds, nodup, depth, room, quiet⟩ := h
  constructor <;> simp only [running, lock, noff, intr, held, off]
  all_goals assumption

/-- The ghost state of what the other CPUs execute does not change. -/
theorem Locks.other (h : Locks s L) (hc : s.running c = i) (hd : d ≠ c) :
    Function.update L i l (s.running d) = L (s.running d) :=
  Function.update_of_ne (fun e => hd (h.inj d c (e.trans hc.symm))) _ _

theorem Locks.here (hc : s.running c = i) : Function.update L i l (s.running c) = l := by
  rw [hc, Function.update_self]

/-- One CPU changes its own lock depth and interrupt bit. -/
theorem Locks.setCpu (h : Locks s L) (hc : s.running c = i) {x : Cpu n} (held : l.held = (L i).held)
    (depth : x.noff = l.off) (room : l.held.length ≤ l.off) (quiet : 0 < x.noff → x.intr = false) :
    Locks (s.setCpu c x) (Function.update L i l) := by
  have cur : ∀ d, (Function.update L i l (s.running d)).held = (L (s.running d)).held :=
    fun d => field_update held _
  refine ⟨h.inj, h.home, fun lk d => ?_, fun d => ?_, fun d => ?_, fun d => ?_, fun d => ?_⟩
  · exact (h.holds lk d).trans (by rw [← cur d]; rfl)
  · exact (cur d).symm ▸ h.nodup d
  all_goals
    by_cases hd : d = c
    · subst hd
      simp only [St.setCpu, Function.update_self, Locks.here hc]
      assumption
    · simp only [St.setCpu, Function.update_of_ne hd, h.other hc hd]
      first | exact h.depth d | exact h.room d | exact h.quiet d

theorem Locks.lock (h : Locks s L) (hc : s.running c = i) {lk : Lock n} (free : s.lock lk = none)
    (new : lk ∉ (L i).held) (room : (L i).held.length < (L i).off) :
    Locks (s.setLock lk (some c)) (Function.update L i ((L i).locked lk)) := by
  refine ⟨h.inj, h.home, fun k d => ?_, fun d => ?_, fun d => ?_, fun d => ?_, h.quiet⟩
  · by_cases hd : d = c
    · subst hd
      simp only [St.setLock, Locks.here hc, Gh.locked_held, List.mem_cons]
      by_cases hk : k = lk
      · subst hk
        simp
      · simp [hk, h.holds k d, hc]
    · simp only [St.setLock, h.other hc hd]
      by_cases hk : k = lk
      · subst hk
        have empty : k ∉ (L (s.running d)).held := fun mem => by
          rw [(h.holds k d).mpr mem] at free
          cases free
        simp [empty, Ne.symm hd]
      · rw [Function.update_of_ne hk]
        exact h.holds k d
  · by_cases hd : d = c
    · subst hd
      simp only [St.setLock, Locks.here hc, Gh.locked_held, List.nodup_cons]
      exact ⟨new, hc ▸ h.nodup d⟩
    · simp only [St.setLock, h.other hc hd]
      exact h.nodup d
  · exact (h.depth d).trans (field_update (f := Gh.off) (by rfl) _).symm
  · by_cases hd : d = c
    · subst hd
      simp only [St.setLock, Locks.here hc, Gh.locked_held, Gh.locked_off, List.length_cons]
      exact room
    · simp only [St.setLock, h.other hc hd]
      exact h.room d

theorem Locks.unlock (h : Locks s L) (hc : s.running c = i) {lk : Lock n} (mem : lk ∈ (L i).held) :
    Locks (s.setLock lk none) (Function.update L i ((L i).unlocked lk)) := by
  have nodup := hc ▸ h.nodup c
  refine ⟨h.inj, h.home, fun k d => ?_, fun d => ?_, fun d => ?_, fun d => ?_, h.quiet⟩
  · by_cases hd : d = c
    · subst hd
      simp only [St.setLock, Locks.here hc, Gh.unlocked_held, List.Nodup.mem_erase_iff nodup]
      by_cases hk : k = lk
      · subst hk
        simp
      · simp [hk, h.holds k d, hc]
    · simp only [St.setLock, h.other hc hd]
      by_cases hk : k = lk
      · subst hk
        have empty : k ∉ (L (s.running d)).held := fun mem' => by
          have one := (h.holds k d).mpr mem'
          have two := (h.holds k c).mpr (hc ▸ mem)
          exact hd (Option.some.inj (one.symm.trans two))
        simp [empty]
      · rw [Function.update_of_ne hk]
        exact h.holds k d
  · by_cases hd : d = c
    · subst hd
      simp only [St.setLock, Locks.here hc, Gh.unlocked_held]
      exact nodup.erase lk
    · simp only [St.setLock, h.other hc hd]
      exact h.nodup d
  · exact (h.depth d).trans (field_update (f := Gh.off) (by rfl) _).symm
  · by_cases hd : d = c
    · subst hd
      have room := hc ▸ h.room d
      simp only [St.setLock, Locks.here hc, Gh.unlocked_held, Gh.unlocked_off]
      exact (List.length_erase_le ..).trans room
    · simp only [St.setLock, h.other hc hd]
      exact h.room d

/-- A CPU goes from one thread to another with the locks it holds. -/
theorem Locks.switch (h : Locks s L) (hc : s.running c = i) {t : Thread n κ} (new : ∀ d, s.running d ≠ t)
    (home : ∀ d, t = .cpu d → d = c) (held : (L t).held = (L i).held) (off : (L t).off = (L i).off) :
    Locks (s.setRunning c t) (Function.update L i l) := by
  have away : t ≠ i := fun e => new c (hc.trans e.symm)
  have cur : ∀ d, (Function.update L i l ((s.setRunning c t).running d)).held = (L (s.running d)).held ∧
      (Function.update L i l ((s.setRunning c t).running d)).off = (L (s.running d)).off := by
    intro d
    by_cases hd : d = c
    · subst hd
      simp only [St.setRunning, Function.update_self, Function.update_of_ne away, held, off, hc, and_self]
    · simp only [St.setRunning, Function.update_of_ne hd, h.other hc hd, and_self]
  refine ⟨fun d e same => ?_, fun d e same => ?_, fun lk d => ?_, fun d => ?_, fun d => ?_, fun d => ?_, h.quiet⟩
  · simp only [St.setRunning] at same
    by_cases hd : d = c <;> by_cases he : e = c
    · rw [hd, he]
    · subst hd
      rw [Function.update_self, Function.update_of_ne he] at same
      exact absurd same.symm (new e)
    · subst he
      rw [Function.update_self, Function.update_of_ne hd] at same
      exact absurd same (new d)
    · rw [Function.update_of_ne hd, Function.update_of_ne he] at same
      exact h.inj d e same
  · simp only [St.setRunning] at same
    by_cases hd : d = c
    · subst hd
      rw [Function.update_self] at same
      exact home e same
    · rw [Function.update_of_ne hd] at same
      exact h.home d e same
  · rw [(cur d).1]
    exact h.holds lk d
  · rw [(cur d).1]
    exact h.nodup d
  · rw [(cur d).2]
    exact h.depth d
  · rw [(cur d).1, (cur d).2]
    exact h.room d

theorem Inv.locks_step (h : Inv initproc tr s L) (ok : pre initproc a (L i)) (hc : s.running c = i)
    (hx : cpuExec c a s r s') : Locks s' (Function.update L i (next initproc a (L i) r)) := by
  have K := h.locks
  have depth : (s.cpu c).noff = (L i).off := hc ▸ K.depth c
  have room : (L i).held.length ≤ (L i).off := hc ▸ K.room c
  have quiet := K.quiet c
  cases a with
  | pushOff =>
    cases hx
    refine K.setCpu hc rfl ?_ ?_ fun _ => rfl
    · simp [Cpu.pushOff, next, depth]
    · simpa [next] using room.trans (Nat.le_succ _)
  | popOff =>
    cases hx
    have more : (L i).held.length < (L i).off := ok
    refine K.setCpu hc rfl ?_ ?_ fun pos => ?_
    · simp [Cpu.popOff, next, depth]
    · simp only [next]
      omega
    · simp only [Cpu.popOff] at pos ⊢
      rw [if_neg fun z => absurd z.1 (by omega)]
      exact quiet (by omega)
  | intrOn =>
    cases hx
    have zero : (L i).off = 0 := ok
    exact K.setCpu hc rfl depth room fun pos => absurd pos (by simp [depth, zero])
  | intrOff =>
    cases hx
    exact K.setCpu hc rfl depth room fun _ => rfl
  | setIntena | setCpuProc =>
    cases hx
    exact K.setCpu hc rfl depth room quiet
  | lock lk =>
    obtain ⟨free, rfl⟩ := hx
    exact K.lock hc free ok.1 ok.2.1
  | unlock lk =>
    cases hx
    exact K.unlock hc ok.1
  | resume p =>
    cases hx
    obtain ⟨⟨d, me⟩, held, off, slot, pick, -⟩ := ok
    obtain rfl : i = .cpu d := (h.places.me i).symm.trans me
    obtain ⟨-, running, idle⟩ := h.states.picks d p pick
    have ready := h.states.parked p idle (Or.inr (Or.inr running))
    exact K.switch hc idle nofun (ready.held.trans held.symm) (ready.off.trans off.symm)
  | suspend =>
    cases hx
    obtain ⟨p, st, me, held, off, own, -⟩ := ok
    obtain rfl : i = .proc p := (h.places.me i).symm.trans me
    obtain ⟨-, parked⟩ := h.places.busy c p hc
    refine K.switch hc (fun d e => ?_) (fun d e => (Thread.cpu.inj e).symm) (parked.held.trans held.symm)
      (parked.off.trans off.symm)
    obtain rfl := K.home d c e
    exact absurd (hc.symm.trans e) nofun
  | _ =>
    exact K.congr (cpuExec_running hx rfl) (cpuExec_lock hx rfl) (fun d => by rw [cpuExec_cpu hx rfl])
      (fun d => by rw [cpuExec_cpu hx rfl]) (field_update (next_held _ _ rfl))
      (field_update (next_off _ _ rfl))

/-! ## Places -/

/-- A scheduler that is not executed does not move. -/
theorem Locks.waits (h : Locks s L) (hc : s.running c = i) {p : Fin n} (hd : s.running d = .proc p) :
    Function.update L i l (.cpu d) = L (.cpu d) := by
  refine Function.update_of_ne (fun e => ?_) _ _
  obtain rfl := h.home c d (hc.trans e.symm)
  exact absurd (hd.symm.trans (hc.trans e.symm)) nofun

/-- Steps that leave `c->proc` and the CPU's choice of a process alone. -/
theorem Places.keep (h : Places s L) (K : Locks s L) (hc : s.running c = i) (running : s'.running = s.running)
    (proc : ∀ d, (s'.cpu d).proc = (s.cpu d).proc) (me : l.me = (L i).me)
    (label : ∀ p, (Function.update L i l (.proc p)).pc = s'.pc p) (slot : l.slot = (L i).slot)
    (pick : l.pick = (L i).pick) (held : (l.slot = none ∧ l.pick = none) ∨ l.held = (L i).held) :
    Places s' (Function.update L i l) := by
  have slots : ∀ t, (Function.update L i l t).slot = (L t).slot := field_update slot
  have picks : ∀ t, (Function.update L i l t).pick = (L t).pick := field_update pick
  have helds : ∀ t, ((L t).slot = none ∧ (L t).pick = none) ∨
      (Function.update L i l t).held = (L t).held := by
    intro t
    by_cases ht : t = i
    · subst ht
      rw [Function.update_self, ← slot, ← pick]
      exact held
    · exact Or.inr (by rw [Function.update_of_ne ht])
  refine ⟨fun t => (field_update me t).trans (h.me t), label, fun d p hd => ?_, fun d hd => ?_,
    fun d p hd => ?_, fun d p hd => ?_, fun p => ?_⟩
  · rw [running] at hd
    rw [proc, K.waits hc hd]
    exact h.busy d p hd
  · rw [running] at hd
    rw [proc, slots]
    exact h.free d hd
  · rw [slots] at hd
    rcases helds (.cpu d) with ⟨none, -⟩ | same
    · exact absurd (hd.symm.trans none) nofun
    · exact same.trans (h.slotted d p hd)
  · rw [picks] at hd
    rcases helds (.cpu d) with ⟨-, none⟩ | same
    · exact absurd (hd.symm.trans none) nofun
    · exact same.trans (h.picked d p hd)
  · rw [slots, picks]
    exact h.plain p

/-- A step of the scheduler that runs on `c`. -/
theorem Places.scheduler (h : Places s L) (hc : s.running c = .cpu c)
    (running : s'.running = s.running) (pc : s'.pc = s.pc)
    (others : ∀ d, d ≠ c → (s'.cpu d).proc = (s.cpu d).proc) (me : l.me = (L (.cpu c)).me)
    (free : (s'.cpu c).proc = l.slot) (slotted : ∀ p, l.slot = some p → l.held = [.proc p])
    (picked : ∀ p, l.pick = some p → l.held = [.proc p]) :
    Places s' (Function.update L (.cpu c) l) := by
  have away : ∀ {e}, e ≠ c → Thread.cpu e ≠ (.cpu c : Thread n κ) := fun h x => h (Thread.cpu.inj x)
  refine ⟨fun t => (field_update me t).trans (h.me t), fun p => (h.label p).trans (by rw [pc]),
    fun e p he => ?_, fun e he => ?_, fun e p he => ?_, fun e p he => ?_, fun p => h.plain p⟩
  · rw [running] at he
    have other : e ≠ c := by
      rintro rfl
      exact absurd (he.symm.trans hc) nofun
    rw [others e other, Function.update_of_ne (away other)]
    exact h.busy e p he
  · by_cases same : e = c
    · rw [same, Function.update_self]
      exact free
    · rw [others e same, Function.update_of_ne (away same)]
      exact h.free e (running ▸ he)
  · by_cases same : e = c
    · rw [same, Function.update_self] at he ⊢
      exact slotted p he
    · rw [Function.update_of_ne (away same)] at he ⊢
      exact h.slotted e p he
  · by_cases same : e = c
    · rw [same, Function.update_self] at he ⊢
      exact picked p he
    · rw [Function.update_of_ne (away same)] at he ⊢
      exact h.picked e p he

/-- The scheduler switches to the process it has put into `c->proc`. -/
theorem Places.resume (h : Places s L) (hc : s.running c = .cpu c) {p : Fin n}
    (me : l.me = (L (.cpu c)).me) (slot : (L (.cpu c)).slot = some p) (parked : l.Parked p) :
    Places (s.setRunning c (.proc p)) (Function.update L (.cpu c) l) := by
  have away : ∀ {e}, e ≠ c → Thread.cpu e ≠ (.cpu c : Thread n κ) := fun h x => h (Thread.cpu.inj x)
  refine ⟨fun t => (field_update me t).trans (h.me t), fun q => h.label q, fun e q he => ?_, fun e he => ?_,
    fun e q he => ?_, fun e q he => ?_, fun q => h.plain q⟩
  · by_cases same : e = c
    · subst same
      simp only [St.setRunning, Function.update_self, Thread.proc.injEq] at he
      subst he
      rw [Function.update_self]
      exact ⟨(h.free e hc).trans slot, parked⟩
    · rw [Function.update_of_ne (away same)]
      simp only [St.setRunning, Function.update_of_ne same] at he
      exact h.busy e q he
  · have same : e ≠ c := by
      rintro rfl
      simp [St.setRunning] at he
    rw [Function.update_of_ne (away same)]
    simp only [St.setRunning, Function.update_of_ne same] at he
    exact h.free e he
  · by_cases same : e = c
    · rw [same, Function.update_self] at he ⊢
      rw [parked.slot] at he
      rw [parked.held, Option.some.inj he]
    · rw [Function.update_of_ne (away same)] at he ⊢
      exact h.slotted e q he
  · by_cases same : e = c
    · rw [same, Function.update_self, parked.pick] at he
      cases he
    · rw [Function.update_of_ne (away same)] at he ⊢
      exact h.picked e q he

/-- A process switches to the scheduler of its CPU. -/
theorem Places.suspend (h : Places s L) (hc : s.running c = i) {p : Fin n} (proc : i = .proc p)
    (me : l.me = (L i).me) (pc : l.pc = (L i).pc) (slot : l.slot = (L i).slot) (pick : l.pick = (L i).pick) :
    Places (s.setRunning c (.cpu c)) (Function.update L i l) := by
  subst proc
  have cpus : ∀ e, Function.update L (.proc p) l (.cpu e) = L (.cpu e) := by
    intro e
    rw [Function.update_of_ne (by simp)]
  obtain ⟨now, parked⟩ := h.busy c p hc
  refine ⟨fun t => (field_update me t).trans (h.me t), fun q => (field_update (f := Gh.pc) pc _).trans (h.label q),
    fun e q he => ?_, fun e he => ?_, fun e q he => ?_, fun e q he => ?_, fun q => ?_⟩
  · have same : e ≠ c := by
      rintro rfl
      simp [St.setRunning] at he
    simp only [St.setRunning, Function.update_of_ne same] at he
    rw [cpus]
    exact h.busy e q he
  · rw [cpus]
    by_cases same : e = c
    · subst same
      exact now.trans parked.slot.symm
    · simp only [St.setRunning, Function.update_of_ne same] at he
      exact h.free e he
  · rw [cpus] at he ⊢
    exact h.slotted e q he
  · rw [cpus] at he ⊢
    exact h.picked e q he
  · rw [field_update (f := Gh.slot) slot, field_update (f := Gh.pick) pick]
    exact h.plain q

theorem Inv.places_step (h : Inv initproc tr s L) (ok : pre initproc a (L i)) (hc : s.running c = i)
    (hx : cpuExec c a s r s') : Places s' (Function.update L i (next initproc a (L i) r)) := by
  have K := h.locks
  have P := h.places
  have labels : (∀ p lbl, a ≠ .goto p lbl) → ∀ p,
      (Function.update L i (next initproc a (L i) r) (.proc p)).pc = s'.pc p := by
    intro k p
    rw [cpuExec_pc hx k, ← P.label p]
    exact field_update (f := Gh.pc) (next_pc _ _ k) _
  cases a with
  | lock | unlock =>
    refine P.keep K hc (cpuExec_running hx rfl) (fun d => by rw [cpuExec_cpu hx rfl]) rfl (labels nofun)
      rfl rfl (Or.inl ?_)
    first | exact ⟨ok.2.2.1, ok.2.2.2⟩ | exact ⟨ok.2.1, ok.2.2.1⟩
  | goto p lbl =>
    cases hx
    refine P.keep K hc rfl (fun _ => rfl) rfl (fun q => ?_) rfl rfl (Or.inr rfl)
    obtain rfl : i = .proc p := (P.me i).symm.trans ok
    by_cases hq : q = p
    · subst hq
      simp [next]
    · rw [Function.update_of_ne fun e => hq (Thread.proc.inj e)]
      exact (P.label q).trans (Function.update_of_ne hq _ _).symm
  | setCpuProc q =>
    cases hx
    obtain ⟨⟨d, me⟩, ok⟩ := ok
    obtain rfl : i = .cpu d := (P.me i).symm.trans me
    obtain rfl : d = c := K.home c d hc
    refine P.scheduler hc rfl rfl (fun e he => ?_) rfl ?_ (fun p e => ?_) fun p e => P.picked d p e
    · simp only [St.setCpu, Function.update_of_ne he]
    · simp [St.setCpu, next]
    · obtain rfl : q = some p := e
      exact ok.1
  | setRunning q =>
    cases hx
    obtain ⟨⟨d, me⟩, held, -, slot, -⟩ := ok
    obtain rfl : i = .cpu d := (P.me i).symm.trans me
    obtain rfl : d = c := K.home c d hc
    refine P.scheduler hc rfl rfl (fun _ _ => rfl) rfl (P.free d hc) (fun p e => P.slotted d p e)
      fun p e => ?_
    obtain rfl : q = p := Option.some.inj e
    exact held
  | resume p =>
    cases hx
    obtain ⟨⟨d, me⟩, held, off, slot, -, seen⟩ := ok
    obtain rfl : i = .cpu d := (P.me i).symm.trans me
    obtain rfl : d = c := K.home c d hc
    exact P.resume hc rfl slot ⟨held, off, slot, rfl, seen⟩
  | suspend =>
    cases hx
    obtain ⟨p, st, me, -⟩ := ok
    exact P.suspend hc ((P.me i).symm.trans me) rfl rfl rfl rfl
  | setIntena | pushOff | popOff | intrOn | intrOff =>
    refine P.keep K hc (cpuExec_running hx rfl) (fun d => ?_) rfl (labels nofun) rfl rfl (Or.inr rfl)
    cases hx
    by_cases hd : d = c
    · subst hd
      simp [St.setCpu, Cpu.pushOff, Cpu.popOff]
    · simp [St.setCpu, Function.update_of_ne hd]
  | _ =>
    exact P.keep K hc (cpuExec_running hx rfl) (fun d => by rw [cpuExec_cpu hx rfl]) (next_me ..)
      (labels nofun) (next_slot _ _ rfl) (next_pick _ _ rfl) (Or.inr (next_held _ _ rfl))

/-! ## States -/

omit [DecidableEq κ] in
/-- A lock is held by one CPU. -/
theorem Locks.one (h : Locks s L) {lk : Lock n} (hc : lk ∈ (L (s.running c)).held)
    (hd : lk ∈ (L (s.running d)).held) : c = d :=
  Option.some.inj (((h.holds lk c).mpr hc).symm.trans ((h.holds lk d).mpr hd))

omit [DecidableEq κ] in
/-- Nobody holds a lock that is free. -/
theorem Locks.none (h : Locks s L) {lk : Lock n} (free : s.lock lk = none) (c : κ) :
    lk ∉ (L (s.running c)).held := fun mem => by
  rw [(h.holds lk c).mpr mem] at free
  cases free

omit [DecidableEq κ] in
theorem Executes.not_embryo {p : Fin n} (h : Executes s L p) :
    (s.proc p).state ≠ .used ∧ (s.proc p).state ≠ .unused := by
  rcases h with ⟨-, state⟩ | ⟨st, -, choice, state, -⟩
  · simp [state]
  · rcases choice with rfl | rfl | rfl <;> simp [state]

/-- Steps that change no process's state, pid or exit status. -/
theorem States.keep (S : States s L) (hc : s.running c = i) (running : s'.running = s.running)
    (same : ∀ p, (s'.proc p).state = (s.proc p).state ∧ (s'.proc p).pid = (s.proc p).pid ∧
      (s'.proc p).xstate = (s.proc p).xstate)
    (own : l.own = (L i).own) (pick : l.pick = (L i).pick) (child : l.child = (L i).child)
    (held : ∀ p st, i = .proc p → l.own = .set st → .proc p ∈ (L i).held → .proc p ∈ l.held)
    (seen : ∀ x, l.seen = some x → .proc x.slot ∈ l.held ∧ i ≠ .proc x.slot ∧ x.Holds s) :
    States s' (Function.update L i l) := by
  have state : ∀ p, (s'.proc p).state = (s.proc p).state := fun p => (same p).1
  have owns : ∀ t, (Function.update L i l t).own = (L t).own := field_update own
  have picks : ∀ t, (Function.update L i l t).pick = (L t).pick := field_update pick
  have childs : ∀ t, (Function.update L i l t).child = (L t).child := field_update child
  have rests : ∀ p, (∀ d, s.running d ≠ .proc p) → Function.update L i l (.proc p) = L (.proc p) :=
    fun p idle => Function.update_of_ne (fun e => idle c (hc.trans e.symm)) _ _
  have holds : ∀ x : Seen n, x.Holds s → x.Holds s' := by
    intro x hx
    exact ⟨(same _).1.trans hx.1, (same _).2.1.trans hx.2.1, (same _).2.2.trans hx.2.2⟩
  refine ⟨fun d p hd => ?_, fun p idle live => ?_, fun p hp => ?_, fun d p hd => ?_, fun d x hx => ?_,
    fun t p b ht => ?_, fun t u p b e ht hu => ?_⟩
  · rw [running] at hd
    rcases S.executes d p hd with ⟨run, now⟩ | ⟨st, set, choice, now, mem⟩
    · exact Or.inl ⟨(owns _).trans run, (state p).trans now⟩
    · refine Or.inr ⟨st, (owns _).trans set, choice, (state p).trans now, ?_⟩
      by_cases self : Thread.proc p = i
      · rw [self, Function.update_self]
        exact held p st self.symm (own.trans (self ▸ set)) (self ▸ mem)
      · rw [Function.update_of_ne self]
        exact mem
  · rw [running] at idle
    rw [state] at live
    rw [rests p idle]
    exact S.parked p idle live
  · rw [state] at hp
    simp only [running, picks]
    exact S.marked p hp
  · rw [picks] at hd
    rw [running, state]
    exact S.picks d p hd
  · rw [running] at hx ⊢
    by_cases hi : s.running d = i
    · rw [hi, Function.update_self] at hx
      obtain ⟨mem, other, now⟩ := seen x hx
      rw [hi, Function.update_self]
      exact ⟨mem, other, holds x now⟩
    · rw [Function.update_of_ne hi] at hx ⊢
      obtain ⟨mem, other, now⟩ := S.seen d x hx
      exact ⟨mem, other, holds x now⟩
  · rw [childs] at ht
    obtain ⟨used, ready⟩ := S.child t p b ht
    have idle : ∀ d, s.running d ≠ .proc p := fun d hd => (S.executes d p hd).not_embryo.1 used
    rw [state, rests p idle]
    exact ⟨used, ready⟩
  · rw [childs] at ht hu
    exact S.only t u p b e ht hu

/-- Steps that change the record of one process. `unseen`: no other thread looks at it. -/
theorem States.poke (S : States s L) (hc : s.running c = i) {p : Fin n} {x : Proc n}
    (held : l.held = (L i).held) (own : i ≠ .proc p → l.own = (L i).own)
    (seen : l.seen = (L i).seen ∨ l.seen = none)
    (unseen : ∀ d y, (Function.update L i l (s.running d)).seen = some y → y.slot ≠ p)
    (exec : ∀ d, s.running d = .proc p → Executes (s.setProc p x) (Function.update L i l) p)
    (ready : (∀ d, s.running d ≠ .proc p) → Live x.state → (L (.proc p)).Ready p)
    (marked : x.state = .running →
      (∃ c, s.running c = .proc p) ∨ ∃ c, (Function.update L i l (.cpu c)).pick = some p)
    (picked : ∀ d, (Function.update L i l (.cpu d)).pick = some p →
      s.running d = .cpu d ∧ x.state = .running ∧ ∀ d, s.running d ≠ .proc p)
    (pick : ∀ t q, q ≠ p → ((Function.update L i l t).pick = some q ↔ (L t).pick = some q))
    (child : ∀ t b, (Function.update L i l t).child = some (p, b) → x.state = .used ∧
      (b = true → Function.update L i l (.proc p) = Gh.fresh p) ∧
      ∀ u e, (Function.update L i l u).child = some (p, e) → t = u)
    (childs : ∀ t q b, q ≠ p → (Function.update L i l t).child = some (q, b) → (L t).child = some (q, b)) :
    States (s.setProc p x) (Function.update L i l) := by
  have at_p : ((s.setProc p x).proc p) = x := by simp [St.setProc]
  have at_q : ∀ q, q ≠ p → (s.setProc p x).proc q = s.proc q := fun q hq => Function.update_of_ne hq _ _
  have rests : ∀ p, (∀ d, s.running d ≠ .proc p) → Function.update L i l (.proc p) = L (.proc p) :=
    fun p idle => Function.update_of_ne (fun e => idle c (hc.trans e.symm)) _ _
  have helds : ∀ t, (Function.update L i l t).held = (L t).held := field_update held
  refine ⟨fun d q hd => ?_, fun q idle live => ?_, fun q hq => ?_, fun d q hd => ?_, fun d y hy => ?_,
    fun t q b ht => ?_, fun t u q b e ht hu => ?_⟩
  · by_cases hq : q = p
    · subst hq
      exact exec d hd
    · have same : (Function.update L i l (.proc q)).own = (L (.proc q)).own := by
        by_cases self : Thread.proc q = i
        · rw [self, Function.update_self]
          exact own fun e => hq (Thread.proc.inj (self.trans e))
        · rw [Function.update_of_ne self]
      rw [Executes, same, helds, at_q q hq]
      exact S.executes d q hd
  · rw [rests q idle]
    by_cases hq : q = p
    · subst hq
      rw [at_p] at live
      exact ready idle live
    · rw [at_q q hq] at live
      exact S.parked q idle live
  · by_cases hp : q = p
    · subst hp
      rw [at_p] at hq
      exact marked hq
    · rw [at_q q hp] at hq
      rcases S.marked q hq with run | ⟨d, hd⟩
      · exact Or.inl run
      · exact Or.inr ⟨d, (pick _ q hp).mpr hd⟩
  · by_cases hp : q = p
    · subst hp
      rw [at_p]
      exact picked d hd
    · rw [at_q q hp]
      exact S.picks d q ((pick _ q hp).mp hd)
  · change (Function.update L i l (s.running d)).seen = some y at hy
    have other := unseen d y hy
    have old : (L (s.running d)).seen = some y := by
      by_cases hi : s.running d = i
      · rw [hi, Function.update_self] at hy
        rw [hi]
        rcases seen with same | none
        · exact same ▸ hy
        · exact absurd (none.symm.trans hy) nofun
      · rwa [Function.update_of_ne hi] at hy
    obtain ⟨mem, away, now⟩ := S.seen d y old
    refine ⟨(helds _).symm ▸ mem, away, ?_⟩
    rw [Seen.Holds, at_q _ other]
    exact now
  · by_cases hp : q = p
    · subst hp
      rw [at_p]
      obtain ⟨used, fresh, -⟩ := child t b ht
      exact ⟨used, fresh⟩
    · obtain ⟨used, fresh⟩ := S.child t q b (childs t q b hp ht)
      have idle : ∀ d, s.running d ≠ .proc q := fun d hd => (S.executes d q hd).not_embryo.1 used
      rw [at_q q hp, rests q idle]
      exact ⟨used, fresh⟩
  · by_cases hp : q = p
    · subst hp
      exact (child t b ht).2.2 u e hu
    · exact S.only t u q b e (childs t q b hp ht) (childs u q e hp hu)

/-- A process is woken up while nobody holds its lock. -/
theorem States.rouse (S : States s L) (K : Locks s L) (P : Places s L) (hc : s.running c = i) {p : Fin n}
    {x : Proc n} (free : s.lock (.proc p) = none)
    (state : x.state = (s.proc p).state ∨ ((s.proc p).state = .sleeping ∧ x.state = .runnable))
    (held : l.held = (L i).held) (own : l.own = (L i).own) (seen : l.seen = (L i).seen)
    (pick : l.pick = (L i).pick) (child : l.child = (L i).child) :
    States (s.setProc p x) (Function.update L i l) := by
  have nobody := K.none free
  have kept : ∀ st, st ≠ .runnable → x.state = st → (s.proc p).state = st := by
    intro st other h
    rcases state with same | ⟨-, runnable⟩
    · exact same.symm.trans h
    · exact absurd (h.symm.trans runnable) other
  have childs : ∀ t, (Function.update L i l t).child = (L t).child := field_update child
  have picks : ∀ t, (Function.update L i l t).pick = (L t).pick := field_update pick
  refine S.poke hc held (fun _ => own) (Or.inl seen) (fun d y hy => ?_) (fun d hd => ?_) (fun idle live => ?_)
    (fun run => ?_) (fun d hd => ?_) (fun t q _ => by rw [picks]) (fun t b ht => ?_)
    fun t q b _ ht => (childs t).symm.trans ht
  · rw [field_update (f := Gh.seen) seen] at hy
    rintro rfl
    exact nobody d (S.seen d y hy).1
  · rcases S.executes d p hd with ⟨run, now⟩ | ⟨st, set, choice, now, mem⟩
    · refine Or.inl ⟨(field_update (f := Gh.own) own _).trans run, ?_⟩
      rcases state with same | ⟨asleep, -⟩
      · simp [St.setProc, same, now]
      · exact absurd (now.symm.trans asleep) (by decide)
    · exact absurd (hd ▸ mem) (nobody d)
  · refine S.parked p idle ?_
    rcases state with same | ⟨asleep, -⟩
    · exact same ▸ live
    · exact Or.inl asleep
  · simp only [picks]
    exact S.marked p (kept .running (by decide) run)
  · rw [picks] at hd
    have here := (S.picks d p hd).1
    have mem : Lock.proc p ∈ (L (s.running d)).held := by
      rw [here, P.picked d p hd]
      exact List.mem_singleton_self _
    exact absurd mem (nobody d)
  · rw [childs] at ht
    obtain ⟨used, fresh⟩ := S.child t p b ht
    have idle : ∀ d, s.running d ≠ .proc p := fun d hd => (S.executes d p hd).not_embryo.1 used
    refine ⟨?_, fun hb => ?_, fun u e hu => S.only t u p b e ht ((childs u).symm.trans hu)⟩
    · rcases state with same | ⟨asleep, -⟩
      · exact same.trans used
      · exact absurd (used.symm.trans asleep) (by decide)
    · rw [Function.update_of_ne fun e => idle c (hc.trans e.symm)]
      exact fresh hb

/-- Nobody but the holder of a process's lock looks at the process. -/
theorem States.unseen (S : States s L) (K : Locks s L) (hc : s.running c = i) {p : Fin n}
    (mem : .proc p ∈ (L i).held) (mine : ∀ y, l.seen = some y → y.slot ≠ p) (d : κ) (y : Seen n)
    (hy : (Function.update L i l (s.running d)).seen = some y) : y.slot ≠ p := by
  by_cases hd : d = c
  · subst hd
    rw [Locks.here hc] at hy
    exact mine y hy
  · rw [K.other hc hd] at hy
    rintro rfl
    exact hd (K.one (S.seen d y hy).1 (hc ▸ mem))

omit [DecidableEq κ] in
/-- What a thread sees under another process's lock is so. -/
theorem States.sees (S : States s L) (hc : s.running c = i) {x : Seen n} (hx : (L i).seen = some x) :
    .proc x.slot ∈ (L i).held ∧ i ≠ .proc x.slot ∧ x.Holds s :=
  hc ▸ S.seen c x (hc.symm ▸ hx)

/-- A process that executes changes its own record under its lock. -/
theorem States.self (S : States s L) (K : Locks s L) {p : Fin n} {x : Proc n} (hc : s.running c = .proc p)
    (mem : .proc p ∈ (L (.proc p)).held) (held : l.held = (L (.proc p)).held)
    (seen : l.seen = (L (.proc p)).seen) (pick : l.pick = (L (.proc p)).pick)
    (child : l.child = (L (.proc p)).child)
    (exec : Executes (s.setProc p x) (Function.update L (.proc p) l) p) :
    States (s.setProc p x) (Function.update L (.proc p) l) := by
  have childs : ∀ t, (Function.update L (.proc p) l t).child = (L t).child := field_update child
  have picks : ∀ t, (Function.update L (.proc p) l t).pick = (L t).pick := field_update pick
  refine S.poke hc held (fun away => absurd rfl away) (Or.inl seen)
    (S.unseen K hc mem fun y hy e => (S.sees hc (seen ▸ hy)).2.1 (e ▸ rfl)) (fun d hd => exec)
    (fun idle => absurd hc (idle c)) (fun _ => Or.inl ⟨c, hc⟩) (fun d hd => ?_) (fun t q _ => by rw [picks])
    (fun t b ht => ?_) fun t q b _ ht => (childs t).symm.trans ht
  · rw [picks] at hd
    exact absurd hc ((S.picks d p hd).2.2 c)
  · rw [childs] at ht
    exact absurd (S.child t p b ht).1 (S.executes c p hc).not_embryo.1

/-- The scheduler marks a process `RUNNING`. -/
theorem States.setRunning (S : States s L) (K : Locks s L) (P : Places s L) {p : Fin n} {x : Seen n}
    (hc : s.running c = .cpu c) (held : (L (.cpu c)).held = [.proc p]) (seen : (L (.cpu c)).seen = some x)
    (slot : x.slot = p) (runnable : x.state = .runnable) :
    States (s.setProc p { s.proc p with state := .running })
      (Function.update L (.cpu c) (next initproc (.setRunning p) (L (.cpu c)) ())) := by
  subst slot
  have mem : Lock.proc x.slot ∈ (L (.cpu c)).held := by simp [held]
  have now : (s.proc x.slot).state = .runnable := (S.sees hc seen).2.2.1.trans runnable
  have idle : ∀ d, s.running d ≠ .proc x.slot := by
    intro d hd
    rcases S.executes d _ hd with ⟨-, run⟩ | ⟨st, -, -, -, mem'⟩
    · exact absurd (now.symm.trans run) (by decide)
    · obtain rfl := K.one (hd ▸ mem') (hc.symm ▸ mem)
      exact absurd (hd.symm.trans hc) nofun
  have childs : ∀ t, (Function.update L (.cpu c) (next initproc (.setRunning x.slot) (L (.cpu c)) ()) t).child =
      (L t).child := field_update (by rfl)
  refine S.poke hc rfl (fun _ => rfl) (Or.inr rfl) (S.unseen K hc mem fun y hy => absurd hy nofun)
    (fun d hd => absurd hd (idle d)) (fun _ _ => S.parked _ idle (Or.inr (Or.inl now)))
    (fun _ => Or.inr ⟨c, by simp [next]⟩) (fun d hd => ?_) (fun t q hq => ?_) (fun t b ht => ?_)
    fun t q b _ ht => (childs t).symm.trans ht
  · by_cases same : d = c
    · subst same
      exact ⟨hc, rfl, idle⟩
    · rw [Function.update_of_ne fun e => same (Thread.cpu.inj e)] at hd
      exact absurd (now.symm.trans (S.picks d _ hd).2.1) (by decide)
  · by_cases ht : t = .cpu c
    · subst ht
      rw [Function.update_self]
      refine iff_of_false (fun e => hq (Option.some.inj e).symm) fun e => ?_
      have other := (P.picked c q e).symm.trans held
      simp only [List.cons.injEq, Lock.proc.injEq, and_true] at other
      exact hq other
    · rw [Function.update_of_ne ht]
  · rw [childs] at ht
    exact absurd (now.symm.trans (S.child t _ b ht).1) (by decide)

/-- `fork` lets the child run. -/
theorem States.setRunnable (S : States s L) (K : Locks s L) (hc : s.running c = i) {p : Fin n}
    (child : (L i).child = some (p, true)) (mem : .proc p ∈ (L i).held) :
    States (s.setProc p { s.proc p with state := .runnable })
      (Function.update L i (next initproc (.setRunnable p) (L i) ())) := by
  obtain ⟨used, fresh⟩ := S.child i p true child
  have idle : ∀ d, s.running d ≠ .proc p := fun d hd => (S.executes d p hd).not_embryo.1 used
  have picks : ∀ t, (Function.update L i (next initproc (.setRunnable p) (L i) ()) t).pick = (L t).pick :=
    field_update (by rfl)
  have childs : ∀ t q b, (Function.update L i (next initproc (.setRunnable p) (L i) ()) t).child = some (q, b) →
      t ≠ i ∧ (L t).child = some (q, b) := by
    intro t q b ht
    by_cases self : t = i
    · subst self
      rw [Function.update_self] at ht
      cases ht
    · rw [Function.update_of_ne self] at ht
      exact ⟨self, ht⟩
  refine S.poke hc rfl (fun _ => rfl) (Or.inr rfl) (S.unseen K hc mem fun y hy => absurd hy nofun)
    (fun d hd => absurd hd (idle d)) (fun _ _ => ?_) nofun (fun d hd => ?_) (fun t q _ => by rw [picks])
    (fun t b ht => ?_) fun t q b _ ht => (childs t q b ht).2
  · rw [fresh rfl]
    exact ⟨rfl, rfl, rfl, rfl⟩
  · rw [picks] at hd
    exact absurd (used.symm.trans (S.picks d p hd).2.1) (by decide)
  · obtain ⟨other, mine⟩ := childs t p b ht
    exact absurd (S.only t i p b true mine child) other

/-- `allocproc` takes a process. -/
theorem States.claim (S : States s L) (K : Locks s L) (hc : s.running c = i) {p : Fin n} {x : Seen n}
    {y : Proc n} (mem : .proc p ∈ (L i).held) (none : (L i).child = none) (seen : (L i).seen = some x)
    (slot : x.slot = p) (unused : x.state = .unused) (used : y.state = .used) :
    States (s.setProc p y) (Function.update L i (next initproc (.claim p) (L i) 0)) := by
  subst slot
  have now : (s.proc x.slot).state = .unused := (S.sees hc seen).2.2.1.trans unused
  have idle : ∀ d, s.running d ≠ .proc x.slot := fun d hd => (S.executes d _ hd).not_embryo.2 now
  have picks : ∀ t, (Function.update L i (next initproc (.claim x.slot) (L i) 0) t).pick = (L t).pick :=
    field_update (by rfl)
  have childs : ∀ t q b, (Function.update L i (next initproc (.claim x.slot) (L i) 0) t).child = some (q, b) →
      (t = i ∧ q = x.slot ∧ b = false) ∨ (t ≠ i ∧ (L t).child = some (q, b)) := by
    intro t q b ht
    by_cases self : t = i
    · subst self
      rw [Function.update_self] at ht
      obtain ⟨rfl, rfl⟩ := Prod.mk.inj (Option.some.inj ht)
      exact Or.inl ⟨rfl, rfl, rfl⟩
    · rw [Function.update_of_ne self] at ht
      exact Or.inr ⟨self, ht⟩
  have strange : ∀ t b, (L t).child ≠ some (x.slot, b) :=
    fun t b ht => absurd (now.symm.trans (S.child t _ b ht).1) (by decide)
  refine S.poke hc rfl (fun _ => rfl) (Or.inr rfl) (S.unseen K hc mem fun y hy => absurd hy nofun)
    (fun d hd => absurd hd (idle d)) (fun _ live => ?_) (fun run => ?_) (fun d hd => ?_)
    (fun t q _ => by rw [picks]) (fun t b ht => ?_) fun t q b other ht => ?_
  · rw [used] at live
    rcases live with h | h | h <;> cases h
  · rw [used] at run
    cases run
  · rw [picks] at hd
    exact absurd (now.symm.trans (S.picks d _ hd).2.1) (by decide)
  · rcases childs t _ b ht with ⟨rfl, -, rfl⟩ | ⟨-, old⟩
    · refine ⟨used, nofun, fun u e hu => ?_⟩
      rcases childs u _ e hu with ⟨rfl, -, -⟩ | ⟨-, old⟩
      · rfl
      · exact absurd old (strange u e)
    · exact absurd old (strange t b)
  · rcases childs t q b ht with ⟨-, rfl, -⟩ | ⟨-, old⟩
    · exact absurd rfl other
    · exact old

omit [DecidableEq κ] in
/-- A process that is freed is not executed. -/
theorem States.idle_of_free (S : States s L) (K : Locks s L) (hc : s.running c = i) {p : Fin n}
    (mem : .proc p ∈ (L i).held) (which : (∃ b, (L i).child = some (p, b)) ∨
      ∃ x, (L i).seen = some x ∧ x.slot = p ∧ x.state = .zombie) (d : κ) : s.running d ≠ .proc p := by
  intro hd
  rcases which with ⟨b, child⟩ | ⟨x, seen, rfl, zombie⟩
  · exact (S.executes d p hd).not_embryo.1 (S.child i p b child).1
  · obtain ⟨-, away, now, -⟩ := S.sees hc seen
    rcases S.executes d _ hd with ⟨-, run⟩ | ⟨st, -, -, -, mem'⟩
    · exact absurd ((now.trans zombie).symm.trans run) (by decide)
    · obtain rfl := K.one (hd ▸ mem') (hc.symm ▸ mem)
      exact away (hc.symm.trans hd)

theorem States.freeproc (S : States s L) (K : Locks s L) (hc : s.running c = i) {p : Fin n}
    (mem : .proc p ∈ (L i).held) (which : (∃ b, (L i).child = some (p, b)) ∨
      ∃ x, (L i).seen = some x ∧ x.slot = p ∧ x.state = .zombie) :
    States (s.setProc p Proc.freed) (Function.update L i (next initproc (.freeproc p) (L i) ())) := by
  have idle := S.idle_of_free K hc mem which
  have picks : ∀ t, (Function.update L i (next initproc (.freeproc p) (L i) ()) t).pick = (L t).pick :=
    field_update (by rfl)
  have childs : ∀ t q b, (Function.update L i (next initproc (.freeproc p) (L i) ()) t).child = some (q, b) →
      t ≠ i ∧ (L t).child = some (q, b) := by
    intro t q b ht
    by_cases self : t = i
    · subst self
      rw [Function.update_self] at ht
      cases ht
    · rw [Function.update_of_ne self] at ht
      exact ⟨self, ht⟩
  have state : (s.proc p).state = .used ∨ (s.proc p).state = .zombie := by
    rcases which with ⟨b, child⟩ | ⟨x, seen, rfl, zombie⟩
    · exact Or.inl (S.child i p b child).1
    · exact Or.inr ((S.sees hc seen).2.2.1.trans zombie)
  refine S.poke hc rfl (fun _ => rfl) (Or.inr rfl) (S.unseen K hc mem fun y hy => absurd hy nofun)
    (fun d hd => absurd hd (idle d)) (fun _ live => ?_) nofun (fun d hd => ?_) (fun t q _ => by rw [picks])
    (fun t b ht => ?_) fun t q b _ ht => (childs t q b ht).2
  · rcases live with h | h | h <;> cases h
  · rw [picks] at hd
    have run := (S.picks d p hd).2.1
    rcases state with h | h <;> exact absurd (h.symm.trans run) (by decide)
  · obtain ⟨other, old⟩ := childs t p b ht
    rcases which with ⟨e, child⟩ | ⟨x, seen, rfl, zombie⟩
    · exact absurd (S.only t i p b e old child) other
    · have now := (S.sees hc seen).2.2.1.trans zombie
      exact absurd (now.symm.trans (S.child t _ b old).1) (by decide)

theorem States.resume (S : States s L) (K : Locks s L) (P : Places s L) {p : Fin n} (hc : s.running c = .cpu c)
    (pick : (L (.cpu c)).pick = some p) :
    States (s.setRunning c (.proc p)) (Function.update L (.cpu c) (next initproc (.resume p) (L (.cpu c)) ())) := by
  obtain ⟨-, running, idle⟩ := S.picks c p pick
  have ready := S.parked p idle (Or.inr (Or.inr running))
  obtain ⟨U, hU⟩ : ∃ U, U = Function.update L (.cpu c) (next initproc (.resume p) (L (.cpu c)) ()) := ⟨_, rfl⟩
  have procs : ∀ q, U (.proc q) = L (.proc q) := by
    intro q
    rw [hU, Function.update_of_ne (by simp)]
  have others : ∀ d, d ≠ c → U (.cpu d) = L (.cpu d) := by
    intro d hd
    rw [hU, Function.update_of_ne fun e => hd (Thread.cpu.inj e)]
  have noPick : (U (.cpu c)).pick = none := by simp [hU, next]
  have childs : ∀ t, (U t).child = (L t).child := by
    rw [hU]
    exact field_update (by rfl)
  have at_c : (s.setRunning c (.proc p)).running c = .proc p := by simp [St.setRunning]
  have at_d : ∀ d, d ≠ c → (s.setRunning c (.proc p)).running d = s.running d :=
    fun d hd => Function.update_of_ne hd _ _
  have moved : ∀ d q, s.running d = .proc q → (s.setRunning c (.proc p)).running d = .proc q := by
    intro d q hd
    rw [at_d d, hd]
    rintro rfl
    exact absurd (hd.symm.trans hc) nofun
  rw [← hU]
  refine ⟨fun d q hd => ?_, fun q away live => ?_, fun q hq => ?_, fun d q hd => ?_, fun d x hx => ?_,
    fun t q b ht => ?_, fun t u q b e ht hu => ?_⟩
  · rw [Executes, procs]
    by_cases same : d = c
    · subst same
      rw [at_c] at hd
      obtain rfl := Thread.proc.inj hd
      exact Or.inl ⟨ready.own, running⟩
    · rw [at_d d same] at hd
      exact S.executes d q hd
  · rw [procs]
    exact S.parked q (fun d hd => away d (moved d q hd)) live
  · by_cases same : q = p
    · subst same
      exact Or.inl ⟨c, at_c⟩
    · rcases S.marked q hq with ⟨d, hd⟩ | ⟨d, hd⟩
      · exact Or.inl ⟨d, moved d q hd⟩
      · have other : d ≠ c := by
          rintro rfl
          exact same (Option.some.inj (hd.symm.trans pick))
        exact Or.inr ⟨d, (others d other).symm ▸ hd⟩
  · have other : d ≠ c := by
      rintro rfl
      rw [noPick] at hd
      cases hd
    rw [others d other] at hd
    obtain ⟨here, run, away⟩ := S.picks d q hd
    refine ⟨(at_d d other).trans here, run, fun e he => ?_⟩
    by_cases same : e = c
    · subst same
      rw [at_c] at he
      obtain rfl := Thread.proc.inj he
      have mine : Lock.proc p ∈ (L (s.running e)).held := by
        rw [hc, P.picked e p pick]
        exact List.mem_singleton_self _
      have theirs : Lock.proc p ∈ (L (s.running d)).held := by
        rw [here, P.picked d p hd]
        exact List.mem_singleton_self _
      exact other (K.one theirs mine)
    · rw [at_d e same] at he
      exact away e he
  · by_cases same : d = c
    · subst same
      rw [at_c, procs, ready.seen] at hx
      cases hx
    · have still : U (s.running d) = L (s.running d) := by
        rw [hU]
        exact K.other hc same
      rw [at_d d same, still] at hx ⊢
      exact S.seen d x hx
  · rw [childs] at ht
    rw [procs]
    exact S.child t q b ht
  · rw [childs] at ht hu
    exact S.only t u q b e ht hu

theorem States.suspend (S : States s L) (K : Locks s L) (P : Places s L) {p : Fin n} {st : ProcState}
    (hc : s.running c = .proc p) (held : (L (.proc p)).held = [.proc p]) (off : (L (.proc p)).off = 1)
    (own : (L (.proc p)).own = .set st) (seen : (L (.proc p)).seen = none) :
    States (s.setRunning c (.cpu c)) (Function.update L (.proc p) (next initproc .suspend (L (.proc p)) ())) := by
  obtain ⟨-, parked⟩ := P.busy c p hc
  have now : (s.proc p).state = st ∧ (st = .runnable ∨ st = .sleeping ∨ st = .zombie) := by
    rcases S.executes c p hc with ⟨run, -⟩ | ⟨st', set, choice, now, -⟩
    · exact absurd (run.symm.trans own) nofun
    · obtain rfl := Own.set.inj (set.symm.trans own)
      exact ⟨now, choice⟩
  obtain ⟨U, hU⟩ : ∃ U, U = Function.update L (.proc p) (next initproc .suspend (L (.proc p)) ()) := ⟨_, rfl⟩
  have at_p : U (.proc p) = next initproc .suspend (L (.proc p)) () := by rw [hU, Function.update_self]
  have procs : ∀ q, q ≠ p → U (.proc q) = L (.proc q) := by
    intro q hq
    rw [hU, Function.update_of_ne fun e => hq (Thread.proc.inj e)]
  have cpus : ∀ d, U (.cpu d) = L (.cpu d) := by
    intro d
    rw [hU, Function.update_of_ne (by simp)]
  have childs : ∀ t, (U t).child = (L t).child := by
    rw [hU]
    exact field_update (by rfl)
  have at_c : (s.setRunning c (.cpu c)).running c = .cpu c := by simp [St.setRunning]
  have at_d : ∀ d, d ≠ c → (s.setRunning c (.cpu c)).running d = s.running d :=
    fun d hd => Function.update_of_ne hd _ _
  have moved : ∀ d q, q ≠ p → s.running d = .proc q → (s.setRunning c (.cpu c)).running d = .proc q := by
    intro d q hq hd
    rw [at_d d, hd]
    rintro rfl
    exact hq (Thread.proc.inj (hd.symm.trans hc))
  rw [← hU]
  refine ⟨fun d q hd => ?_, fun q away live => ?_, fun q hq => ?_, fun d q hd => ?_, fun d x hx => ?_,
    fun t q b ht => ?_, fun t u q b e ht hu => ?_⟩
  · have other : d ≠ c := by
      rintro rfl
      rw [at_c] at hd
      cases hd
    rw [at_d d other] at hd
    have notMe : q ≠ p := by
      rintro rfl
      exact other (K.inj d c (hd.trans hc.symm))
    rw [Executes, procs q notMe]
    exact S.executes d q hd
  · by_cases same : q = p
    · subst same
      rw [at_p]
      have alive : st ≠ .zombie := by
        rintro rfl
        rw [St.setRunning, now.1] at live
        rcases live with h | h | h <;> cases h
      refine ⟨held, off, ?_, seen⟩
      simp [next, own, alive]
    · rw [procs q same]
      exact S.parked q (fun d hd => away d (moved d q same hd)) live
  · have notMe : q ≠ p := by
      rintro rfl
      have run : st = .running := now.1.symm.trans hq
      rcases now.2 with h | h | h <;> exact absurd (h.symm.trans run) (by decide)
    simp only [cpus]
    rcases S.marked q hq with ⟨d, hd⟩ | right
    · exact Or.inl ⟨d, moved d q notMe hd⟩
    · exact Or.inr right
  · rw [cpus] at hd
    obtain ⟨here, run, away⟩ := S.picks d q hd
    have other : d ≠ c := by
      rintro rfl
      exact absurd (here.symm.trans hc) nofun
    refine ⟨(at_d d other).trans here, run, fun e he => ?_⟩
    by_cases same : e = c
    · subst same
      rw [at_c] at he
      cases he
    · rw [at_d e same] at he
      exact away e he
  · by_cases same : d = c
    · subst same
      rw [at_c, cpus, parked.seen] at hx
      cases hx
    · have still : U (s.running d) = L (s.running d) := by
        rw [hU]
        exact K.other hc same
      rw [at_d d same, still] at hx ⊢
      exact S.seen d x hx
  · rw [childs] at ht
    obtain ⟨used, fresh⟩ := S.child t q b ht
    have notMe : q ≠ p := by
      rintro rfl
      exact (S.executes c q hc).not_embryo.1 used
    rw [procs q notMe]
    exact ⟨used, fresh⟩
  · rw [childs] at ht hu
    exact S.only t u q b e ht hu

omit [DecidableEq κ] in
theorem States.congr (S : States s L) (running : s'.running = s.running) (proc : s'.proc = s.proc) :
    States s' L := by
  obtain ⟨executes, parked, marked, picks, seen, child, only⟩ := S
  refine ⟨?_, ?_, ?_, ?_, ?_, ?_, only⟩ <;> simp only [Executes, Seen.Holds, running, proc]
  all_goals assumption

theorem Inv.states_step (h : Inv initproc tr s L) (ok : pre initproc a (L i)) (hc : s.running c = i)
    (hx : cpuExec c a s r s') : States s' (Function.update L i (next initproc a (L i) r)) := by
  have K := h.locks
  have P := h.places
  have S := h.states
  have sees := fun x (hx : (L i).seen = some x) => S.sees hc hx
  -- the table keeps its states, pids and exit statuses if only other fields of one process change
  have field : ∀ (p : Fin n) (x : Proc n), x.state = (s.proc p).state → x.pid = (s.proc p).pid →
      x.xstate = (s.proc p).xstate → ∀ q, ((s.setProc p x).proc q).state = (s.proc q).state ∧
        ((s.setProc p x).proc q).pid = (s.proc q).pid ∧ ((s.setProc p x).proc q).xstate = (s.proc q).xstate := by
    intro p x state pid xstate q
    by_cases hq : q = p
    · subst hq
      simp [St.setProc, state, pid, xstate]
    · simp [St.setProc, Function.update_of_ne hq]
  cases a with
  | setState p st =>
    cases hx
    obtain ⟨me, mem, -, choice⟩ := ok
    obtain rfl : i = .proc p := (P.me i).symm.trans me
    refine S.self K hc mem rfl rfl rfl rfl (Or.inr ⟨st, by simp [next], ?_, by simp [St.setProc],
      by simpa [next] using mem⟩)
    rcases choice with h | h | h
    · exact Or.inl h
    · exact Or.inr (Or.inl h.1)
    · exact Or.inr (Or.inr h.1)
  | setRunning p =>
    cases hx
    obtain ⟨⟨d, me⟩, held, -, -, x, seen, slot, runnable⟩ := ok
    obtain rfl : i = .cpu d := (P.me i).symm.trans me
    obtain rfl : d = c := K.home c d hc
    exact S.setRunning K P hc held seen slot runnable
  | setRunnable p =>
    cases hx
    exact S.setRunnable K hc ok.1 ok.2
  | claim p =>
    obtain ⟨-, rfl⟩ := hx
    obtain ⟨-, mem, none, -, x, seen, slot, unused⟩ := ok
    have claimed : States (s.setProc p { s.proc p with pid := s.nextpid, state := .used, priority := 5 })
        (Function.update L i (next initproc (.claim p) (L i) 0)) :=
      S.claim K hc mem none seen slot unused rfl
    exact claimed.congr rfl rfl
  | freeproc p =>
    cases hx
    obtain ⟨mem, which⟩ := ok
    refine S.freeproc K hc mem ?_
    rcases which with h | ⟨-, -, -, -, -, h⟩
    · exact Or.inl h
    · exact Or.inr h
  | resume p =>
    cases hx
    obtain ⟨⟨d, me⟩, -, -, -, pick, -⟩ := ok
    obtain rfl : i = .cpu d := (P.me i).symm.trans me
    obtain rfl : d = c := K.home c d hc
    exact S.resume K P hc pick
  | suspend =>
    cases hx
    obtain ⟨p, st, me, held, off, own, seen⟩ := ok
    obtain rfl : i = .proc p := (P.me i).symm.trans me
    exact S.suspend K P hc held off own seen
  | wakeOne chan p =>
    obtain ⟨free, rfl⟩ := hx
    refine S.rouse K P hc free ?_ (next_held _ _ rfl) (next_own _ _ rfl) (next_seen _ _ rfl)
      (next_pick _ _ rfl) (next_child _ _ rfl)
    rw [Proc.woken]
    split
    · exact Or.inr ⟨(by assumption : _ ∧ _).1, rfl⟩
    · exact Or.inl rfl
  | killOne pid p =>
    obtain ⟨free, -, rfl⟩ := hx
    split
    · refine S.rouse K P hc free ?_ rfl rfl rfl rfl rfl
      simp only [Proc.kill]
      split
      · exact Or.inr ⟨by assumption, rfl⟩
      · exact Or.inl rfl
    · exact S.keep hc rfl (fun _ => ⟨rfl, rfl, rfl⟩) rfl rfl rfl (fun _ _ _ _ h => h) sees
  | priorityOne pid priority p =>
    obtain ⟨free, -, rfl⟩ := hx
    split
    · exact S.keep hc rfl (field p _ rfl rfl rfl) rfl rfl rfl (fun _ _ _ _ h => h) sees
    · exact S.keep hc rfl (fun _ => ⟨rfl, rfl, rfl⟩) rfl rfl rfl (fun _ _ _ _ h => h) sees
  | setChan p _ | setKilled p | setPriority p _ =>
    cases hx
    exact S.keep hc rfl (field p _ rfl rfl rfl) rfl rfl rfl (fun _ _ _ _ h => h) sees
  | setParent p q =>
    cases hx
    refine S.keep hc rfl (field p _ rfl rfl rfl) (next_own _ _ rfl) (next_pick _ _ rfl) (next_child _ _ rfl) ?_ ?_
    · intro q st _ _ h
      rwa [next_held _ _ rfl]
    · intro x hx
      rw [next_seen _ _ rfl] at hx
      rw [next_held _ _ rfl]
      exact sees x hx
  | setXstate p status =>
    cases hx
    obtain ⟨me, mem, own⟩ := ok
    obtain rfl : i = .proc p := (P.me i).symm.trans me
    refine S.self K hc mem rfl rfl rfl rfl (Or.inl ⟨by simp [next, own], ?_⟩)
    rcases S.executes c p hc with ⟨-, run⟩ | ⟨st, set, -⟩
    · simpa [St.setProc] using run
    · exact absurd (own.symm.trans set) nofun
  | lock lk =>
    obtain ⟨-, rfl⟩ := hx
    refine S.keep hc rfl (fun _ => ⟨rfl, rfl, rfl⟩) rfl rfl rfl (fun _ _ _ _ h => List.mem_cons_of_mem _ h) ?_
    intro x hx
    obtain ⟨mem, away, now⟩ := sees x hx
    exact ⟨List.mem_cons_of_mem _ mem, away, now⟩
  | unlock lk =>
    cases hx
    obtain ⟨mem, -, -, releases⟩ := ok
    refine S.keep hc rfl (fun _ => ⟨rfl, rfl, rfl⟩) rfl rfl rfl ?_ ?_
    · rintro p st rfl own has
      have other : Lock.proc p ≠ lk := by
        rintro rfl
        have run := (releases.1 (P.me _)).1
        exact absurd (run.symm.trans own) nofun
      exact (List.mem_erase_of_ne other).mpr has
    · intro x hx
      simp only [next, Gh.unlocked_seen] at hx
      split at hx
      · cases hx
      · rename_i different
        obtain ⟨mem, away, now⟩ := sees x hx
        have other : Lock.proc x.slot ≠ lk := by
          rintro rfl
          exact different (by simp [hx])
        exact ⟨(List.mem_erase_of_ne other).mpr mem, away, now⟩
  | read p =>
    obtain ⟨rfl, rfl⟩ := hx
    refine S.keep hc rfl (fun _ => ⟨rfl, rfl, rfl⟩) rfl rfl rfl (fun _ _ _ _ h => h) ?_
    intro x hx
    simp only [next, Gh.learn_seen] at hx
    split at hx
    · rename_i locked
      obtain rfl := Option.some.inj hx
      exact ⟨locked.1, fun e => locked.2 ((P.me i).trans e), rfl, rfl, rfl⟩
    · exact sees x hx
  | setCpuProc q =>
    cases hx
    exact S.keep hc rfl (fun _ => ⟨rfl, rfl, rfl⟩) rfl rfl rfl (fun _ _ _ _ h => h) sees
  | setContext | panic => exact hx.elim
  | _ =>
    refine S.keep hc (cpuExec_running hx rfl) (fun q => by rw [cpuExec_proc hx rfl]; exact ⟨rfl, rfl, rfl⟩)
      (next_own _ _ rfl) (next_pick _ _ rfl) (next_child _ _ rfl) ?_ ?_
    · intro q st _ _ h
      rwa [next_held _ _ rfl]
    · intro x hx
      rw [next_seen _ _ rfl] at hx
      rw [next_held _ _ rfl]
      exact sees x hx

end Xv6.Process
