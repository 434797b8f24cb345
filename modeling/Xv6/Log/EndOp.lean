import Xv6.Log.Alone

/-!
# `end_op` by a process that runs alone

The commit writes every logged block to the log and then home, and leaves the contents that
`bread` returns as they were, except for the blocks of the log itself.
-/

namespace Xv6.Log

open Interleave

/-- The block is none of the log's own blocks. -/
def LogVar.Outside (log : LogVar) (b : Nat) : Prop := b < log.start ∨ log.start + log.size ≤ b

section State

variable {ι T : Type} {L : List Nat} {s : St ι T} {i : ι} {h : Handle} {b : Nat} {d : Block}

/-- A block is written through to the disk. -/
def St.write (s : St ι T) (b : Nat) (d : Block) : St ι T :=
  { s with disk := Function.update s.disk b d, cache := Function.update s.cache b d }

def St.unpin (s : St ι T) (b : Nat) : St ι T :=
  { s with pin := Function.update s.pin b (s.pin b - 1) }

theorem Settled.write (settled : Settled L s) : Settled L (s.write b d) where
  pins := settled.pins
  nodup := settled.nodup
  clean := by
    intro x hx unheld
    by_cases e : x = b
    · simp [St.write, e]
    · simpa [St.write, e] using settled.clean x hx unheld

theorem Settled.unpin (settled : Settled (b :: L) s) (same : s.cache b = s.disk b) :
    Settled L (s.unpin b) where
  pins := by
    intro x
    have fresh : b ∉ L := (List.nodup_cons.mp settled.nodup).1
    have old := settled.pins
    by_cases e : x = b
    · subst e
      simp [St.unpin, old, fresh]
    · simp [St.unpin, old, e]
  nodup := (List.nodup_cons.mp settled.nodup).2
  clean := by
    intro x hx unheld
    by_cases e : x = b
    · exact e ▸ same
    · exact settled.clean x (by simp [e, hx]) unheld

theorem write_self (same : d = s.cache b) :
    (s.write b d).cache = s.cache := by
  rw [same, St.write, Function.update_eq_self]

end State

/-! ## Rules for the actions of the commit -/

section Rules

variable {ι X T α : Type} {RX : X → Type}
variable {execX : ι → (x : X) → T → RX x → T → Prop} {P : Policy} {i : ι}
variable {L : List Nat} {s : St ι T} {h : Handle} {b : Nat} {d : Block}
variable {Q : α → St ι T → Prop}

theorem ends_getLog {f : LogVar → Code RX α} (settled : Settled L s)
    (rest : Ends execX P i (f s.log) s Q) : Ends execX P i (getLog >>= f) s Q := by
  refine ends_req settled trivial ⟨_, _, ⟨rfl, rfl⟩, trivial⟩ ?_
  rintro r s' ⟨rfl, rfl⟩ -
  exact rest

theorem ends_setLh {f : Unit → Code RX α} {lh : List Nat} (settled : Settled L s)
    (rest : Ends execX P i (f ()) { s with log := { s.log with lh := lh } } Q) :
    Ends execX P i (setLh lh >>= f) s Q := by
  refine ends_req settled trivial ⟨(), _, rfl, trivial⟩ ?_
  rintro r s' rfl -
  exact rest

theorem ends_bwrite {f : Unit → Code RX α} (settled : Settled L s) (free : s.hold h = none)
    (rest : Ends execX P i (f ()) ((s.write b d).edit i h b d) Q) :
    Ends execX P i (bwrite h >>= f) (s.edit i h b d) Q := by
  refine ends_req (settled.edit free) trivial ⟨(), _, ⟨b, edit_hold, rfl⟩, trivial⟩ ?_
  rintro r s' ⟨b', held, rfl⟩ -
  obtain ⟨-, rfl⟩ : i = i ∧ b = b' := by simpa [edit_hold] using held
  have : (s.write b d).edit i h b d = { s.edit i h b d with
      disk := Function.update (s.edit i h b d).disk b ((s.edit i h b d).cache b) } := by
    simp [St.write, St.edit]
  rwa [this] at rest

theorem ends_bunpin {f : Unit → Code RX α} (settled : Settled L s) (free : s.hold h = none)
    (rest : Ends execX P i (f ()) ((s.unpin b).edit i h b d) Q) :
    Ends execX P i (bunpin h >>= f) (s.edit i h b d) Q := by
  refine ends_req (settled.edit free) trivial ⟨(), _, ⟨b, edit_hold, rfl⟩, trivial⟩ ?_
  rintro r s' ⟨b', held, rfl⟩ -
  obtain ⟨-, rfl⟩ : i = i ∧ b = b' := by simpa [edit_hold] using held
  exact rest

end Rules

/-! ## The loops -/

/-- A state in which the last operation ends. -/
structure Closing {ι T : Type} (P : Policy) (s : St ι T) : Prop where
  idle : ∀ h, s.hold h = none
  outside : ∀ b ∈ s.log.lh, s.log.Outside b
  short : s.log.lh.length ≤ LOGSIZE
  room : s.log.lh.length < s.log.size
  seat : P.excuses "bget: no buffers" ∨ s.log.lh.length < NBUF

/-- What the commit has left of the state it began in, with `L` still pinned. -/
structure Since {ι T : Type} (s₀ : St ι T) (L : List Nat) (s : St ι T) : Prop where
  settled : Settled L s
  log : s.log = s₀.log
  hold : s.hold = s₀.hold
  aux : s.aux = s₀.aux
  up : s.up = s₀.up
  cache : ∀ b, s₀.log.Outside b → s.cache b = s₀.cache b

section Commit

variable {ι X T α : Type} {RX : X → Type}
variable {execX : ι → (x : X) → T → RX x → T → Prop} {P : Policy} {i : ι}
variable {L : List Nat} {s₀ s : St ι T} {h : Handle} {b t : Nat} {d : Block}
variable {Q : α → St ι T → Prop}

theorem Since.idle (since : Since s₀ L s) (closing : Closing P s₀) (h : Handle) :
    s.hold h = none := by
  rw [since.hold]
  exact closing.idle h

theorem Since.unheld (since : Since s₀ L s) (closing : Closing P s₀) (b : Nat) : s.Unheld b := by
  intro h j e
  rw [since.idle closing h] at e
  cases e

theorem Since.held (since : Since s₀ L s) (closing : Closing P s₀) : s.held = 0 := by
  simp [St.held, since.idle closing]

theorem Since.seat (since : Since s₀ L s) (closing : Closing P s₀) (b : Nat) : P.Seat s b where
  few := by
    rw [since.held closing]
    decide
  room := closing.seat.imp id fun short => Or.inr (by rw [since.held closing, since.log]; omega)

/-- Once a log block is held, the block it stands for is still in the cache. -/
theorem Since.seat_pinned (since : Since s₀ L s) (closing : Closing P s₀) (mem : b ∈ L) {x : Nat} :
    P.Seat (s.edit i h x d) b where
  few := by
    rw [held_edit (since.idle closing h), since.held closing]
    decide
  room := Or.inr (Or.inl (by
    show s.pin b ≠ 0
    rw [since.settled.pins, if_pos mem]
    exact Nat.one_ne_zero))

/-- A block of the log itself is written. -/
theorem Since.write (since : Since s₀ L s) (inside : ¬ s₀.log.Outside b) :
    Since s₀ L (s.write b d) where
  settled := since.settled.write
  log := since.log
  hold := since.hold
  aux := since.aux
  up := since.up
  cache := by
    intro x outside
    have : x ≠ b := by
      rintro rfl
      exact inside outside
    simpa [St.write, this] using since.cache x outside

theorem edit_write {x : Nat} {d' : Block} (apart : x ≠ b) :
    (s.edit i h b d).write x d' = (s.write x d').edit i h b d := by
  simp only [St.edit, St.write, Function.update_comm apart]

/-- One round of `write_log`. -/
theorem ends_copyToLog (since : Since s₀ L s) (closing : Closing P s₀) (mem : b ∈ L) {x : Nat}
    (outside : s₀.log.Outside b) (inside : ¬ s₀.log.Outside x) {f : Unit → Code RX α}
    (rest : Ends execX P i (f ()) (s.write x (s₀.cache b)) Q) :
    Ends execX P i (bread x >>= fun toBuf => bread b >>= fun fromBuf => getData fromBuf >>= fun d =>
      setData toBuf d >>= fun _ => bwrite toBuf >>= fun _ => brelse fromBuf >>= fun _ =>
      brelse toBuf >>= f) s Q := by
  have apart : b ≠ x := by
    rintro rfl
    exact inside outside
  refine ends_bread since.settled (since.seat closing x) (since.unheld closing x) ?_
  intro h₁ free₁
  refine ends_bread (since.settled.edit free₁) (since.seat_pinned closing mem)
    ((since.unheld closing b).edit apart) ?_
  intro h₂ free₂
  have handles := ne_of_free_edit free₂
  have contents : (s.edit i h₁ x (s.cache x)).cache b = s₀.cache b := by
    rw [edit_cache, Function.update_of_ne apart, since.cache b outside]
  have idle₁ : ∀ {d}, (s.edit i h₂ b d).hold h₁ = none :=
    fun {d} => (edit_hold_of_ne (Ne.symm handles)).trans free₁
  rw [contents]
  refine ends_getData (since.settled.edit free₁) free₂ ?_
  rw [edit_comm handles apart]
  refine ends_setData (since.settled.edit (since.idle closing h₂)) idle₁ ?_
  refine ends_bwrite (since.settled.edit (since.idle closing h₂)) idle₁ ?_
  rw [edit_write (Ne.symm apart), ← edit_comm handles apart]
  have wrote := since.write (d := s₀.cache b) inside
  refine ends_brelse (wrote.settled.edit (wrote.idle closing h₁)) free₂ ?_ ?_
  · simp [St.write, apart, since.cache b outside]
  · exact ends_brelse wrote.settled (wrote.idle closing h₁) (by simp [St.write]) rest

/-- The first `n` log blocks hold what the cache has for the blocks they stand for. -/
def OnLog (s₀ : St ι T) (n : Nat) (s : St ι T) : Prop :=
  ∀ u b, u < n → s₀.log.lh[u]? = some b → s.cache (s₀.log.start + u + 1) = s₀.cache b

theorem ends_writeLogFrom (closing : Closing P s₀) {k : Nat} (hk : k ≤ LOGSIZE) {f : Unit → Code RX α}
    (rest : ∀ s', Since s₀ s₀.log.lh s' → OnLog s₀ LOGSIZE s' → Ends execX P i (f ()) s' Q)
    (since : Since s₀ s₀.log.lh s) (copied : OnLog s₀ (LOGSIZE - k) s) :
    Ends execX P i (writeLogFrom k >>= f) s Q := by
  induction k generalizing s with
  | zero => exact rest s since copied
  | succ k ih =>
    rw [writeLogFrom, Prog.bind_assoc]
    refine ends_getLog since.settled ?_
    rw [since.log]
    cases tail : s₀.log.lh[LOGSIZE - (k + 1)]? with
    | none =>
      simp only [tail, Prog.pure_bind]
      refine rest s since fun u b hu hb => copied u b ?_ hb
      have := List.getElem?_eq_none_iff.mp tail
      have := (List.getElem?_eq_some_iff.mp hb).1
      omega
    | some b =>
      have mem : b ∈ s₀.log.lh := List.mem_of_getElem? tail
      have inside : ¬ s₀.log.Outside (s₀.log.start + (LOGSIZE - (k + 1)) + 1) := by
        have := (List.getElem?_eq_some_iff.mp tail).1
        have := closing.room
        simp only [LogVar.Outside]
        omega
      simp only [tail, Prog.bind_assoc]
      refine ends_copyToLog since closing mem (closing.outside b mem) inside ?_
      refine ih (by omega) (since.write inside) ?_
      intro u b' hu hb'
      by_cases e : u = LOGSIZE - (k + 1)
      · subst e
        obtain rfl : b = b' := Option.some.inj (tail.symm.trans hb')
        simp [St.write]
      · have : s₀.log.start + u + 1 ≠ s₀.log.start + (LOGSIZE - (k + 1)) + 1 := by omega
        exact (Function.update_of_ne this _ _).trans (copied u b' (by omega) hb')

/-- One round of `install_trans`. -/
theorem ends_install (since : Since s₀ (b :: L) s) (closing : Closing P s₀) {x : Nat}
    (apart : b ≠ x) (copied : s.cache x = s.cache b) {f : Unit → Code RX α}
    (rest : Ends execX P i (f ()) ((s.write b (s.cache b)).unpin b) Q) :
    Ends execX P i (bread x >>= fun lbuf => bread b >>= fun dbuf => getData lbuf >>= fun d =>
      setData dbuf d >>= fun _ => bwrite dbuf >>= fun _ => bunpin dbuf >>= fun _ =>
      brelse lbuf >>= fun _ => brelse dbuf >>= f) s Q := by
  refine ends_bread since.settled (since.seat closing x) (since.unheld closing x) ?_
  intro h₁ free₁
  refine ends_bread (since.settled.edit free₁) (since.seat_pinned closing List.mem_cons_self)
    ((since.unheld closing b).edit apart) ?_
  intro h₂ free₂
  have handles := ne_of_free_edit free₂
  have idle₂ := since.idle closing h₂
  have idle₁ : ∀ {d}, (s.edit i h₂ b d).hold h₁ = none :=
    fun {d} => (edit_hold_of_ne (Ne.symm handles)).trans free₁
  rw [edit_comm handles apart]
  refine ends_getData (since.settled.edit idle₂) idle₁ ?_
  rw [← edit_comm handles apart, copied]
  have settled₁ : Settled (b :: L) (s.edit i h₁ x (s.cache b)) := since.settled.edit free₁
  have free₂ : (s.edit i h₁ x (s.cache b)).hold h₂ = none := free₂
  refine ends_setData settled₁ free₂ (ends_bwrite settled₁ free₂ ?_)
  refine ends_bunpin settled₁.write free₂ ?_
  rw [edit_write apart]
  have settled : Settled L ((s.write b (s.cache b)).unpin b) :=
    since.settled.write.unpin (by simp [St.write])
  show Ends execX P i _
    ((((s.write b (s.cache b)).unpin b).edit i h₁ x (s.cache b)).edit i h₂ b (s.cache b)) Q
  rw [edit_comm handles apart]
  refine ends_brelse (settled.edit idle₂) (idle₁ (d := s.cache b)) ?_ ?_
  · simp [St.unpin, St.write, Ne.symm apart, copied]
  · exact ends_brelse settled idle₂ (by simp [St.unpin, St.write]) rest

theorem ends_installTransFrom (closing : Closing P s₀) {k : Nat} (hk : k ≤ LOGSIZE)
    {f : Unit → Code RX α} (rest : ∀ s', Since s₀ [] s' → Ends execX P i (f ()) s' Q)
    (since : Since s₀ (s₀.log.lh.drop (LOGSIZE - k)) s) (copied : OnLog s₀ LOGSIZE s) :
    Ends execX P i (installTransFrom false k >>= f) s Q := by
  induction k generalizing s with
  | zero =>
    rw [List.drop_of_length_le (by simpa using closing.short)] at since
    exact rest s since
  | succ k ih =>
    rw [installTransFrom, Prog.bind_assoc]
    refine ends_getLog since.settled ?_
    rw [since.log]
    cases tail : s₀.log.lh[LOGSIZE - (k + 1)]? with
    | none =>
      simp only [tail, Prog.pure_bind]
      rw [List.drop_of_length_le (List.getElem?_eq_none_iff.mp tail)] at since
      exact rest s since
    | some b =>
      obtain ⟨short, nth⟩ := List.getElem?_eq_some_iff.mp tail
      have outside := closing.outside b (List.mem_of_getElem? tail)
      have apart : b ≠ s₀.log.start + (LOGSIZE - (k + 1)) + 1 := by
        rintro rfl
        have := closing.room
        simp only [LogVar.Outside] at outside
        omega
      rw [List.drop_eq_getElem_cons short, nth,
        show LOGSIZE - (k + 1) + 1 = LOGSIZE - k by omega] at since
      simp only [tail, Prog.bind_assoc, Bool.false_eq_true, if_false]
      have here : s.cache (s₀.log.start + (LOGSIZE - (k + 1)) + 1) = s.cache b :=
        (copied _ b (by omega) tail).trans (since.cache b outside).symm
      refine ends_install since closing apart here ?_
      have same : (s.write b (s.cache b)).cache = s.cache := write_self rfl
      refine ih (by omega) ?_ ?_
      · exact {
          settled := since.settled.write.unpin (by simp [St.write])
          log := since.log
          hold := since.hold
          aux := since.aux
          up := since.up
          cache := fun x hx => (congrFun same x).trans (since.cache x hx) }
      · exact fun u x hu hx => (congrFun same _).trans (copied u x hu hx)

theorem ends_writeHead (settled : Settled L s) (idle : ∀ h, s.hold h = none)
    (seat : P.Seat s s.log.start) {f : Unit → Code RX α}
    (rest : ∀ d, Ends execX P i (f ()) (s.write s.log.start d) Q) :
    Ends execX P i (writeHead >>= f) s Q := by
  have unheld : s.Unheld s.log.start := by
    intro h j e
    rw [idle h] at e
    cases e
  rw [writeHead, Prog.bind_assoc]
  refine ends_getLog settled ?_
  simp only [Prog.bind_assoc]
  refine ends_bread settled seat unheld fun h free => ?_
  refine ends_getData settled free (ends_setData settled free (ends_bwrite settled free ?_))
  exact ends_brelse settled.write free (by simp [St.write]) (rest _)

/-- What a commit leaves of the state it began in; `log` is what `struct log` is then. -/
structure Closed {ι T : Type} (s : St ι T) (log : LogVar) (s' : St ι T) : Prop where
  settled : Settled [] s'
  log : s'.log = log
  hold : s'.hold = s.hold
  aux : s'.aux = s.aux
  up : s'.up = s.up
  cache : ∀ b, s.log.Outside b → s'.cache b = s.cache b

theorem Closing.start_inside (closing : Closing P s) : ¬ s.log.Outside s.log.start := by
  have := closing.room
  simp only [LogVar.Outside]
  omega

/-- The header of the emptied log is written. -/
theorem Since.closed (since : Since s₀ [] s) (closing : Closing P s₀) :
    Closed s₀ { s₀.log with lh := [] }
      (St.write { s with log := { s.log with lh := [] } } s.log.start d) := by
  have wrote := since.write (d := d) closing.start_inside
  rw [← since.log] at wrote ⊢
  constructor
  · exact Settled.write ⟨since.settled.pins, since.settled.nodup, since.settled.clean⟩
  · rfl
  · exact since.hold
  · exact since.aux
  · exact since.up
  · intro b outside
    exact wrote.cache b (since.log ▸ outside)

theorem ends_commit (closing : Closing P s) (settled : Settled s.log.lh s) {f : Unit → Code RX α}
    (rest : ∀ s', Closed s { s.log with lh := [] } s' → Ends execX P i (f ()) s' Q) :
    Ends execX P i (commit >>= f) s Q := by
  rw [commit, Prog.bind_assoc]
  refine ends_getLog settled ?_
  by_cases empty : 0 < s.log.lh.length
  · simp only [if_pos empty, Prog.bind_assoc]
    have start : Since s s.log.lh s := ⟨settled, rfl, rfl, rfl, rfl, fun _ _ => rfl⟩
    refine ends_writeLogFrom closing le_rfl ?_ start (fun u b hu => by omega)
    intro s₁ since₁ copied
    refine ends_writeHead since₁.settled (since₁.idle closing) (since₁.seat closing _) fun d => ?_
    have since₂ : Since s s.log.lh (s₁.write s₁.log.start d) := by
      rw [since₁.log]
      exact since₁.write closing.start_inside
    refine ends_installTransFrom closing le_rfl ?_ (by simpa using since₂) ?_
    · intro s₃ since₃
      refine ends_setLh since₃.settled ?_
      have settled₃ : Settled [] { s₃ with log := { s₃.log with lh := [] } } :=
        ⟨since₃.settled.pins, since₃.settled.nodup, since₃.settled.clean⟩
      refine ends_writeHead settled₃ (since₃.idle closing) ?_ fun d => rest _ (since₃.closed closing)
      have seat := since₃.seat closing s₃.log.start
      exact ⟨seat.few, seat.room.imp id (Or.imp id fun few => by
        show s₃.held + 0 < NBUF
        omega)⟩
    · intro u b hu hb
      have ne : s.log.start + u + 1 ≠ s₁.log.start := by
        rw [since₁.log]
        omega
      exact (Function.update_of_ne ne _ _).trans (copied u b hu hb)
  · have nil : s.log.lh = [] := List.eq_nil_of_length_eq_zero (by omega)
    simp only [if_neg empty, Prog.pure_bind]
    refine rest s ⟨nil ▸ settled, ?_, rfl, rfl, rfl, fun _ _ => rfl⟩
    rw [← nil]

theorem ends_endOp (closing : Closing P s) (settled : Settled s.log.lh s)
    (last : s.log.outstanding = 1) (quiet : s.log.committing = false) {f : Unit → Code RX α}
    (rest : ∀ s', Closed s { s.log with outstanding := 0, lh := [] } s' →
      Ends execX P i (f ()) s' Q) :
    Ends execX P i (endOp >>= f) s Q := by
  have dec : s.log.endOpDec = (.ok true, { s.log with outstanding := 0, committing := true }) := by
    simp [LogVar.endOpDec, last, quiet]
  rw [endOp, Prog.bind_assoc]
  refine ends_req settled trivial ⟨_, _, ⟨rfl, rfl⟩, trivial⟩ ?_
  rintro r s₁ ⟨rfl, rfl⟩ -
  rw [dec]
  show Ends execX P i ((commit >>= fun _ => (req .endOpDone : Code RX Unit)) >>= f) _ Q
  rw [Prog.bind_assoc (commit : Code RX Unit) (fun _ => (req .endOpDone : Code RX Unit)) f]
  have closing₁ : Closing P { s with
      log := { s.log with outstanding := 0, committing := true } } :=
    ⟨closing.idle, closing.outside, closing.short, closing.room, closing.seat⟩
  refine ends_commit closing₁ ⟨settled.pins, settled.nodup, settled.clean⟩ fun s₂ closed => ?_
  refine ends_req closed.settled trivial ⟨(), _, rfl, trivial⟩ ?_
  rintro r s₃ rfl -
  refine rest _ ⟨⟨closed.settled.pins, closed.settled.nodup, closed.settled.clean⟩, ?_,
    closed.hold, closed.aux, closed.up, closed.cache⟩
  simp [closed.log, LogVar.endOpDone, quiet]

end Commit

end Xv6.Log
