import Mathlib
import Xv6.Interleave.Must
import Xv6.Interleave.Run
import Xv6.Log.Model

/-!
# A process that runs alone

The log layer as one process sees it while no other process moves. Buffers that are neither
locked nor pinned may still be recycled between any two of its actions. `bget` finds no
buffer only if all of them are in use, by this process or by the log.

While every modified buffer is held or in the log (`Settled`), recycling has no effect, and
the code above the log works on the contents of the cache alone. The rules below say so for
each of its actions; `grab` and `store` are the only changes of state they speak of.
-/

namespace Xv6.Log

open Interleave

section Machine

variable {ι X T : Type} {RX : X → Type} [DecidableEq ι]
variable (execX : ι → (x : X) → T → RX x → T → Prop)

/-- Some buffers that nobody has locked or pinned have been recycled. -/
def Recycled (s s' : St ι T) : Prop :=
  ∃ c, s' = { s with cache := c } ∧ ∀ b, c b ≠ s.cache b →
    c b = s.disk b ∧ s.pin b = 0 ∧ ∀ h j, s.hold h ≠ some (j, b)

/-- How many buffers are locked. -/
def St.held (s : St ι T) : Nat := (Finset.univ.filter fun h => (s.hold h).isSome = true).card

/-- `bget` fails only if the block has no buffer and all buffers are in use. -/
def Fair (s : St ι T) : (a : Act X) → Res RX a → Prop
  | .bread b, r => r = none → s.pin b = 0 ∧ NBUF ≤ s.held + s.log.lh.length
  | _, _ => True

def alone (i : ι) (a : Act X) (s : St ι T) (r : Res RX a) (s' : St ι T) : Prop :=
  (∃ s₁, Recycled s s₁ ∧ exec execX i a s₁ r s') ∧ Fair s a r

def aloneSys : Sys ι (Act X) (Res RX) (St ι T) Ev where
  exec := alone execX
  obs := fun _ a s => obs a s
  env := fun _ _ _ _ _ => False
  calls := fun _ _ _ => False

/-- What is asked of a process: which blocks a transaction may log beside those it has
logged, which panics are excused, and whether waiting for ever is. -/
structure Policy where
  admits : List Nat → Nat → Prop
  excuses : String → Prop
  waits : Prop

def Policy.cond (P : Policy) (_ : ι) : Act X → St ι T → Prop
  | .logWrite h, s => ∀ j b, s.hold h = some (j, b) → P.admits s.log.lh b
  | _, _ => True

def Policy.stop (P : Policy) (i : ι) : Act X → St ι T → Prop
  | .panic msg, _ => P.excuses msg
  | a, s => P.waits ∧ ∀ r s', ¬ alone execX i a s r s'

variable (P : Policy) (i : ι) {α : Type}

/-- Code of log.c, run alone, comes to its end. -/
def Ends (p : Code RX α) (s : St ι T) (Q : α → St ι T → Prop) : Prop :=
  p.must (((aloneSys execX).restrict P.cond).exec i) (P.stop execX i) s Q

/-- Code above the log, run alone, comes to its end. -/
def Ensures (p : Prog (OpAct X) (OpRes RX) α) (s : St ι T) (Q : α → St ι T → Prop) : Prop :=
  Ends execX P i (p.interp impl) s Q

end Machine

/-! ## Computed runs -/

section Computed

variable {ι X T : Type} {RX : X → Type}
variable {execX : ι → (x : X) → T → RX x → T → Prop}

theorem Recycled.refl (s : St ι T) : Recycled s s := ⟨s.cache, rfl, fun _ h => absurd rfl h⟩

variable [DecidableEq ι]

/-- The block of a buffer, if process `i` holds it. -/
def St.block (s : St ι T) (i : ι) (h : Handle) : Option Nat :=
  match s.hold h with
  | some (j, b) => if j = i then some b else none
  | none => none

theorem St.block_eq {s : St ι T} {i : ι} {h : Handle} {b : Nat} (e : s.block i h = some b) :
    s.hold h = some (i, b) := by
  rw [block] at e
  split at e
  · rename_i j b' held
    split at e
    · obtain rfl := Option.some.inj e
      rw [held, ‹j = i›]
    · cases e
  · cases e

/-- `exec` as a function; `bread` takes the first free buffer. -/
def step (stepX : ι → (x : X) → T → Option (RX x × T)) (i : ι) :
    (a : Act X) → St ι T → Option (Res RX a × St ι T)
  | .bread b, s =>
    if (List.finRange NBUF).any fun h => (s.hold h).any fun x => x.2 == b then none
    else ((List.finRange NBUF).find? fun h => (s.hold h).isNone).map fun h =>
      (some h, { s with hold := Function.update s.hold h (some (i, b)) })
  | .getData h, s => (s.block i h).map fun b => (s.cache b, s)
  | .setData h d, s => (s.block i h).map fun b =>
      ((), { s with cache := Function.update s.cache b d })
  | .bwrite h, s => (s.block i h).map fun b =>
      ((), { s with disk := Function.update s.disk b (s.cache b) })
  | .bunpin h, s => (s.block i h).map fun b =>
      ((), { s with pin := Function.update s.pin b (s.pin b - 1) })
  | .brelse h, s => (s.block i h).map fun _ =>
      ((), { s with hold := Function.update s.hold h none })
  | .beginOp, s => if s.log.admits then some ((), { s with log := s.log.beginOp }) else none
  | .endOpDec, s => some (s.log.endOpDec.1, { s with log := s.log.endOpDec.2 })
  | .endOpDone, s => some ((), { s with log := s.log.endOpDone })
  | .logWrite h, s => (s.block i h).map fun b =>
    match s.log.logWrite b with
    | .error msg => (.error msg, s)
    | .ok (log, fresh) => (.ok (), { s with
        log := log
        pin := if fresh then Function.update s.pin b (s.pin b + 1) else s.pin })
  | .getLog, s => some (s.log, s)
  | .setLh lh, s => some ((), { s with log := { s.log with lh := lh } })
  | .ready, s => some ((), { s with up := true })
  | .panic _, _ => none
  | .aux x, s => (stepX i x s.aux).map fun y => (y.1, { s with aux := y.2 })

variable {stepX : ι → (x : X) → T → Option (RX x × T)}

theorem step_sound (hX : ∀ i x t r t', stepX i x t = some (r, t') → execX i x t r t') {i : ι}
    {a : Act X} {s s' : St ι T} {r : Res RX a} (h : step stepX i a s = some (r, s')) :
    exec execX i a s r s' ∧ Fair s a r := by
  cases a with
  | bread b =>
    simp only [step] at h
    split at h
    · cases h
    · rename_i unheld
      obtain ⟨g, found, e⟩ := Option.map_eq_some_iff.mp h
      obtain ⟨rfl, rfl⟩ := Prod.mk.inj e
      have free := List.find?_some found
      refine ⟨⟨by simpa using free, fun g' j held => unheld ?_, rfl⟩, nofun⟩
      exact List.any_eq_true.mpr ⟨g', List.mem_finRange g', by simp [held]⟩
  | getData g | setData g | bwrite g | bunpin g | brelse g =>
    obtain ⟨b, held, e⟩ := Option.map_eq_some_iff.mp h
    cases e
    exact ⟨⟨b, St.block_eq held, by first | exact rfl | exact ⟨rfl, rfl⟩⟩, trivial⟩
  | logWrite g =>
    obtain ⟨b, held, e⟩ := Option.map_eq_some_iff.mp h
    refine ⟨⟨b, St.block_eq held, ?_⟩, trivial⟩
    cases written : s.log.logWrite b with
    | error msg =>
      rw [written] at e
      cases e
      exact ⟨rfl, rfl⟩
    | ok x =>
      rw [written] at e
      cases e
      exact ⟨rfl, rfl⟩
  | beginOp =>
    simp only [step] at h
    split at h
    · cases h
      exact ⟨⟨by assumption, rfl⟩, trivial⟩
    · cases h
  | panic => cases h
  | aux x =>
    obtain ⟨⟨r', t⟩, held, e⟩ := Option.map_eq_some_iff.mp h
    obtain ⟨rfl, rfl⟩ := Prod.mk.inj e
    exact ⟨⟨t, hX _ _ _ _ _ held, rfl⟩, trivial⟩
  | endOpDec | getLog =>
    cases h
    exact ⟨⟨rfl, rfl⟩, trivial⟩
  | endOpDone | setLh | ready =>
    cases h
    exact ⟨rfl, trivial⟩

/-- Computes runs of a process alone. -/
def aloneStepper (hX : ∀ i x t r t', stepX i x t = some (r, t') → execX i x t r t') :
    Stepper (aloneSys execX) where
  step := step stepX
  ready _ := false
  accepted _ _ := False
  step_sound h := ⟨⟨_, Recycled.refl _, (step_sound hX h).1⟩, (step_sound hX h).2⟩
  call_sound := nofun

end Computed

/-! ## Changes of state -/

section State

variable {ι T : Type}

/-- Nobody has a buffer of this block locked. -/
def St.Unheld (s : St ι T) (b : Nat) : Prop := ∀ h j, s.hold h ≠ some (j, b)

/-- Every modified buffer is locked or pinned; `L` are the pinned blocks. -/
structure Settled (L : List Nat) (s : St ι T) : Prop where
  pins : ∀ b, s.pin b = if b ∈ L then 1 else 0
  nodup : L.Nodup
  clean : ∀ b, b ∉ L → s.Unheld b → s.cache b = s.disk b

theorem Settled.recycled {L : List Nat} {s s' : St ι T} (settled : Settled L s)
    (h : Recycled s s') : s' = s := by
  obtain ⟨c, rfl, hc⟩ := h
  have same : c = s.cache := by
    funext b
    by_contra moved
    obtain ⟨old, unpinned, unheld⟩ := hc b moved
    have notin : b ∉ L := by
      intro hb
      rw [settled.pins, if_pos hb] at unpinned
      cases unpinned
    exact moved (old.trans (settled.clean b notin unheld).symm)
  rw [same]

def LogVar.add (log : LogVar) (b : Nat) : LogVar :=
  { log with lh := if b ∈ log.lh then log.lh else log.lh ++ [b] }

@[simp] theorem LogVar.mem_add {log : LogVar} {b x : Nat} :
    x ∈ (log.add b).lh ↔ x ∈ log.lh ∨ x = b := by
  rw [add]
  by_cases h : b ∈ log.lh
  · rw [if_pos h]
    exact ⟨Or.inl, fun hx => hx.elim id fun e => e ▸ h⟩
  · rw [if_neg h]
    simp

/-- A process holds a buffer of block `b` and has put contents into it. -/
def St.edit (s : St ι T) (i : ι) (h : Handle) (b : Nat) (d : Block) : St ι T :=
  { s with
    cache := Function.update s.cache b d
    hold := Function.update s.hold h (some (i, b)) }

/-- A block gets new contents, which are logged. -/
def St.store (s : St ι T) (b : Nat) (d : Block) : St ι T :=
  { s with
    cache := Function.update s.cache b d
    pin := if b ∈ s.log.lh then s.pin else Function.update s.pin b (s.pin b + 1)
    log := s.log.add b }

variable {L : List Nat} {s : St ι T} {i : ι} {h h' : Handle} {b b' : Nat} {d d' : Block}

@[simp] theorem store_cache : (s.store b d).cache = Function.update s.cache b d := rfl
@[simp] theorem store_hold : (s.store b d).hold = s.hold := rfl
@[simp] theorem store_held : (s.store b d).held = s.held := rfl
@[simp] theorem store_aux : (s.store b d).aux = s.aux := rfl
@[simp] theorem store_log : (s.store b d).log = s.log.add b := rfl
@[simp] theorem edit_log : (s.edit i h b d).log = s.log := rfl
@[simp] theorem edit_aux : (s.edit i h b d).aux = s.aux := rfl
@[simp] theorem edit_cache : (s.edit i h b d).cache = Function.update s.cache b d := rfl

theorem edit_hold : (s.edit i h b d).hold h = some (i, b) := by simp [St.edit]

theorem edit_hold_of_ne (ne : h' ≠ h) : (s.edit i h b d).hold h' = s.hold h' := by
  simp [St.edit, ne]

theorem ne_of_free_edit (free : (s.edit i h b d).hold h' = none) : h' ≠ h := by
  rintro rfl
  rw [edit_hold] at free
  cases free

theorem edit_edit : { s.edit i h b d with cache := Function.update (s.edit i h b d).cache b d' } =
    s.edit i h b d' := by
  simp [St.edit]

/-- Stores to other blocks do not meet the buffer a process holds. -/
theorem edit_store {x : Nat} (apart : x ≠ b) :
    (s.edit i h b d).store x d' = (s.store x d').edit i h b d := by
  simp only [St.edit, St.store, Function.update_comm apart]
  rfl

theorem held_edit (free : s.hold h = none) : (s.edit i h b d).held = s.held + 1 := by
  have : (Finset.univ.filter fun x => ((s.edit i h b d).hold x).isSome = true) =
      insert h (Finset.univ.filter fun x => (s.hold x).isSome = true) := by
    ext x
    rw [Finset.mem_filter, Finset.mem_insert, Finset.mem_filter]
    by_cases e : x = h
    · simp [e, edit_hold]
    · simp [e, St.edit]
  rw [St.held, this, Finset.card_insert_of_notMem (by simp [free]), St.held]

theorem exists_free (few : s.held < NBUF) : ∃ h, s.hold h = none := by
  by_contra none
  have all : (Finset.univ.filter fun h => (s.hold h).isSome = true) = Finset.univ := by
    ext h
    have : s.hold h ≠ Option.none := fun e => none ⟨h, e⟩
    simp [Option.isSome_iff_ne_none, this]
  rw [St.held, all, Finset.card_univ, Fintype.card_fin] at few
  exact Nat.lt_irrefl _ few

theorem St.Unheld.edit (unheld : s.Unheld b') (apart : b' ≠ b) : (s.edit i h b d).Unheld b' := by
  intro x j
  by_cases e : x = h
  · simp [e, edit_hold, Ne.symm apart]
  · simpa [St.edit, e] using unheld x j

/-- The order in which two buffers were taken does not matter. -/
theorem edit_comm (handles : h' ≠ h) (blocks : b' ≠ b) :
    (s.edit i h b d).edit i h' b' d' = (s.edit i h' b' d').edit i h b d := by
  simp only [St.edit, Function.update_comm handles, Function.update_comm blocks]

theorem Settled.edit (settled : Settled L s) (free : s.hold h = none) :
    Settled L (s.edit i h b d) where
  pins := settled.pins
  nodup := settled.nodup
  clean := by
    intro x hx unheld
    have ne : x ≠ b := by
      rintro rfl
      exact unheld h i edit_hold
    rw [edit_cache, Function.update_of_ne ne]
    refine settled.clean x hx fun h' j hold => ?_
    have hne : h' ≠ h := by
      rintro rfl
      rw [free] at hold
      cases hold
    exact unheld h' j (by simpa [St.edit, Function.update_of_ne hne] using hold)

theorem Settled.store (settled : Settled s.log.lh s) :
    Settled (s.store b d).log.lh (s.store b d) where
  pins := by
    intro x
    have old := settled.pins
    simp only [St.store, LogVar.mem_add]
    by_cases hb : b ∈ s.log.lh
    · rw [if_pos hb, old x]
      exact if_congr ⟨Or.inl, fun hx => hx.elim id fun e => e ▸ hb⟩ rfl rfl
    · rw [if_neg hb]
      by_cases e : x = b
      · subst e
        simp [old, hb]
      · simp [old, e]
  nodup := by
    simp only [store_log, LogVar.add]
    by_cases hb : b ∈ s.log.lh
    · rw [if_pos hb]
      exact settled.nodup
    · rw [if_neg hb]
      exact List.nodup_append.mpr ⟨settled.nodup, List.nodup_singleton b, by
        rintro x hx y hy rfl
        exact hb (List.mem_singleton.mp hy ▸ hx)⟩
  clean := by
    intro x hx unheld
    simp only [store_log, LogVar.mem_add, not_or] at hx
    rw [store_cache, Function.update_of_ne hx.2]
    exact settled.clean x hx.1 unheld

theorem Settled.aux {t : T} (settled : Settled L s) : Settled L { s with aux := t } :=
  ⟨settled.pins, settled.nodup, settled.clean⟩

end State

/-! ## Rules for the code of log.c -/

section Ends

variable {ι X T α β : Type} {RX : X → Type}
variable {execX : ι → (x : X) → T → RX x → T → Prop} {P : Policy} {i : ι}
variable {L : List Nat} {s : St ι T} {h : Handle} {b : Nat} {d d' : Block}
variable {Q : α → St ι T → Prop}

/-- There is a buffer for one more block, or the policy excuses the panic. -/
structure Policy.Seat (P : Policy) (s : St ι T) (b : Nat) : Prop where
  few : s.held < NBUF
  room : P.excuses "bget: no buffers" ∨ s.pin b ≠ 0 ∨ s.held + s.log.lh.length < NBUF

/-- `log_write` does not panic. -/
def LogVar.HasRoom (log : LogVar) : Prop := log.lh.length < LOGSIZE ∧ log.lh.length < log.size - 1

/-- The log takes one more block, or the policy excuses the panic. -/
structure Policy.Takes (P : Policy) (log : LogVar) (b : Nat) : Prop where
  admits : P.admits log.lh b
  room : P.excuses "too big a transaction" ∨ log.HasRoom
  inOp : 1 ≤ log.outstanding

/-- In a settled state an action does what the machine of the log layer does. -/
theorem ends_req {a : Act X} {k : Res RX a → Code RX α} (settled : Settled L s)
    (cond : P.cond i a s) (enabled : ∃ r s', exec execX i a s r s' ∧ Fair s a r)
    (next : ∀ r s', exec execX i a s r s' → Fair s a r → Ends execX P i (k r) s' Q) :
    Ends execX P i (req a >>= k) s Q := by
  refine Or.inr ⟨?_, ?_⟩
  · obtain ⟨r, s', step, fair⟩ := enabled
    exact ⟨r, s', cond, ⟨s, Recycled.refl s, step⟩, fair⟩
  · rintro r s' ⟨-, ⟨s₁, recycled, step⟩, fair⟩
    obtain rfl := settled.recycled recycled
    exact next r s' step fair

theorem ends_bread {f : Handle → Code RX α} (settled : Settled L s) (seat : P.Seat s b)
    (unheld : s.Unheld b)
    (rest : ∀ h, s.hold h = none → Ends execX P i (f h) (s.edit i h b (s.cache b)) Q) :
    Ends execX P i (bread b >>= f) s Q := by
  have grab : ∀ h, s.edit i h b (s.cache b) =
      { s with hold := Function.update s.hold h (some (i, b)) } := by
    intro h
    simp [St.edit]
  rw [bread, Prog.bind_assoc]
  refine ends_req settled trivial ?_ ?_
  · obtain ⟨h, free⟩ := exists_free seat.few
    exact ⟨some h, _, ⟨free, unheld, rfl⟩, nofun⟩
  · rintro (_ | h) s' step fair
    · obtain rfl : s' = s := step
      have full := fair rfl
      rcases seat.room with excused | pinned | room
      · exact Or.inl excused
      · exact absurd full.1 pinned
      · exact absurd full.2 (Nat.not_le.mpr room)
    · obtain ⟨free, -, rfl⟩ := step
      have := rest h free
      rwa [grab] at this

theorem ends_getData {f : Block → Code RX α} (settled : Settled L s) (free : s.hold h = none)
    (rest : Ends execX P i (f d) (s.edit i h b d) Q) :
    Ends execX P i (getData h >>= f) (s.edit i h b d) Q := by
  refine ends_req (settled.edit free) trivial ⟨_, _, ⟨b, edit_hold, rfl, rfl⟩, trivial⟩ ?_
  rintro r s' ⟨b', held, rfl, rfl⟩ -
  obtain ⟨-, rfl⟩ : i = i ∧ b = b' := by simpa [edit_hold] using held
  simpa using rest

theorem ends_setData {f : Unit → Code RX α} (settled : Settled L s) (free : s.hold h = none)
    (rest : Ends execX P i (f ()) (s.edit i h b d') Q) :
    Ends execX P i (setData h d' >>= f) (s.edit i h b d) Q := by
  refine ends_req (settled.edit free) trivial ⟨(), _, ⟨b, edit_hold, rfl⟩, trivial⟩ ?_
  rintro r s' ⟨b', held, rfl⟩ -
  obtain ⟨-, rfl⟩ : i = i ∧ b = b' := by simpa [edit_hold] using held
  rw [edit_edit]
  exact rest

/-- A buffer is given back as it was found. -/
theorem ends_brelse {f : Unit → Code RX α} (settled : Settled L s) (free : s.hold h = none)
    (same : d = s.cache b) (rest : Ends execX P i (f ()) s Q) :
    Ends execX P i (brelse h >>= f) (s.edit i h b d) Q := by
  refine ends_req (settled.edit free) trivial ⟨(), _, ⟨b, edit_hold, rfl⟩, trivial⟩ ?_
  rintro r s' ⟨b', -, rfl⟩ -
  have back : { s.edit i h b d with hold := Function.update (s.edit i h b d).hold h none } = s := by
    simp only [St.edit, Function.update_idem, same, Function.update_eq_self, ← free]
  rw [back]
  exact rest

theorem logWrite_eq {log : LogVar} (inOp : 1 ≤ log.outstanding) :
    log.logWrite b =
      if log.lh.length < LOGSIZE ∧ log.lh.length < log.size - 1 then
        .ok (log.add b, decide (b ∉ log.lh))
      else .error "too big a transaction" := by
  rw [LogVar.logWrite]
  by_cases room : log.lh.length < LOGSIZE ∧ log.lh.length < log.size - 1
  · rw [if_pos room, if_neg (by omega), if_neg (by omega)]
    by_cases mem : b ∈ log.lh
    · simp [mem, LogVar.add]
    · simp [mem, LogVar.add]
  · rw [if_neg room, if_pos (by omega)]

theorem edit_logged : { s.edit i h b d with
      log := s.log.add b
      pin := if decide (b ∉ s.log.lh) = true then Function.update s.pin b (s.pin b + 1) else s.pin } =
    (s.store b d).edit i h b d := by
  by_cases mem : b ∈ s.log.lh
  · simp [St.edit, St.store, mem]
  · simp [St.edit, St.store, mem]

theorem ends_logWrite {f : Unit → Code RX α} (settled : Settled L s) (free : s.hold h = none)
    (takes : P.Takes s.log b)
    (rest : s.log.HasRoom → Ends execX P i (f ()) ((s.store b d).edit i h b d) Q) :
    Ends execX P i (logWrite h >>= f) (s.edit i h b d) Q := by
  have whose : ∀ {j b'}, (s.edit i h b d).hold h = some (j, b') → b' = b := by
    intro j b' held
    rw [edit_hold] at held
    cases held
    rfl
  rw [logWrite, Prog.bind_assoc]
  refine ends_req (settled.edit free) ?_ ?_ ?_
  · intro j b' held
    rw [whose held]
    exact takes.admits
  · by_cases room : s.log.lh.length < LOGSIZE ∧ s.log.lh.length < s.log.size - 1
    · refine ⟨.ok (), (s.store b d).edit i h b d, ⟨b, edit_hold, ?_⟩, trivial⟩
      rw [edit_log, logWrite_eq takes.inOp, if_pos room]
      exact ⟨rfl, edit_logged.symm⟩
    · refine ⟨.error "too big a transaction", s.edit i h b d, ⟨b, edit_hold, ?_⟩, trivial⟩
      rw [edit_log, logWrite_eq takes.inOp, if_neg room]
      exact ⟨rfl, rfl⟩
  · rintro r s' ⟨b', held, step⟩ -
    obtain rfl := whose held
    rw [edit_log, logWrite_eq takes.inOp] at step
    by_cases room : s.log.lh.length < LOGSIZE ∧ s.log.lh.length < s.log.size - 1
    · rw [if_pos room] at step
      obtain ⟨rfl, rfl⟩ := step
      rw [← edit_logged] at rest
      exact rest room
    · rw [if_neg room] at step
      obtain ⟨rfl, rfl⟩ := step
      exact Or.inl (takes.room.resolve_right room)

end Ends

end Xv6.Log
