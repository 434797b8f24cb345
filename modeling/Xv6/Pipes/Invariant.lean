import Xv6.Interleave.Own
import Xv6.Pipes.Ghost

/-!
# The invariant of the pipe

Four parts: what the processes know is so; the ring holds what was enqueued and not yet dequeued; the
record of the run fits the calls; and, in strict runs, nobody dozes without need.
-/

namespace Xv6.Pipes

open Interleave

variable {n : Nat}

/-! ## Reading the record -/

section Record

variable {p : Fin n} {tr mid : List (Ev n)} {c e : Ev n}

/-- The bytes put into the pipe, in order. -/
def enqueued (tr : List (Ev n)) : List UInt8 :=
  tr.filterMap fun | .enqueue _ ch => some ch | _ => none

/-- The bytes taken out of the pipe, in order. -/
def dequeued (tr : List (Ev n)) : List UInt8 :=
  tr.filterMap fun | .dequeue _ ch => some ch | _ => none

/-- The bytes stored for readers, in order. -/
def delivered (tr : List (Ev n)) : List UInt8 :=
  tr.filterMap fun | .deliver _ _ ch => some ch | _ => none

/-- The bytes that `p` put into the pipe. -/
def sentBy (p : Fin n) (tr : List (Ev n)) : List UInt8 :=
  tr.filterMap fun | .enqueue q ch => if q = p then some ch else none | _ => none

/-- The bytes that `p` took out of the pipe. -/
def takenBy (p : Fin n) (tr : List (Ev n)) : List UInt8 :=
  tr.filterMap fun | .dequeue q ch => if q = p then some ch else none | _ => none

/-- The bytes stored for `p`. -/
def storedBy (p : Fin n) (tr : List (Ev n)) : List UInt8 :=
  tr.filterMap fun | .deliver q _ ch => if q = p then some ch else none | _ => none

@[simp] theorem enqueued_append (tr o : List (Ev n)) : enqueued (tr ++ o) = enqueued tr ++ enqueued o :=
  List.filterMap_append

@[simp] theorem dequeued_append (tr o : List (Ev n)) : dequeued (tr ++ o) = dequeued tr ++ dequeued o :=
  List.filterMap_append

@[simp] theorem delivered_append (tr o : List (Ev n)) : delivered (tr ++ o) = delivered tr ++ delivered o :=
  List.filterMap_append

@[simp] theorem sentBy_append (tr o : List (Ev n)) : sentBy p (tr ++ o) = sentBy p tr ++ sentBy p o :=
  List.filterMap_append

@[simp] theorem takenBy_append (tr o : List (Ev n)) : takenBy p (tr ++ o) = takenBy p tr ++ takenBy p o :=
  List.filterMap_append

@[simp] theorem storedBy_append (tr o : List (Ev n)) : storedBy p (tr ++ o) = storedBy p tr ++ storedBy p o :=
  List.filterMap_append

/-- A call of `p` begins. -/
def Ev.Begins (p : Fin n) : Ev n → Prop
  | .write q _ => q = p
  | .read q _ _ => q = p
  | _ => False

/-- The last call of `p` is `c`, and `mid` was recorded since. -/
def During (p : Fin n) (c : Ev n) (mid tr : List (Ev n)) : Prop :=
  (∃ earlier, tr = earlier ++ c :: mid) ∧ ∀ e ∈ mid, ¬e.Begins p

theorem During.start : During p c [] (tr ++ [c]) := ⟨⟨tr, rfl⟩, nofun⟩

theorem During.append (h : During p c mid tr) {o : List (Ev n)} (other : ∀ e ∈ o, ¬e.Begins p) :
    During p c (mid ++ o) (tr ++ o) := by
  obtain ⟨⟨earlier, rfl⟩, none⟩ := h
  refine ⟨⟨earlier, by simp⟩, fun e he => ?_⟩
  rcases List.mem_append.mp he with old | new
  · exact none e old
  · exact other e new

/-- How an entry of the record relates to the call it belongs to: a byte enqueued is the next one of
those to be written; a result counts the bytes of its call; `piperead` returns 0 only at the end of
the file. Where the destination is not mapped nothing is said about `piperead`. -/
def Fits (before : List (Ev n)) : Ev n → Prop
  | .enqueue p ch => ∃ bytes mid, During p (.write p bytes) mid before ∧ sentBy p mid ++ [ch] <+: bytes
  | .wrote p r => ∃ bytes mid, During p (.write p bytes) mid before ∧ (0 ≤ r → r = (sentBy p mid).length)
  | .took p r empty writeopen => ∃ n' mapped mid, During p (.read p n' mapped) mid before ∧
      (mapped = true → 0 ≤ r → r = (takenBy p mid).length ∧ storedBy p mid = takenBy p mid ∧
        (r = 0 → 0 < n' → empty = true ∧ writeopen = false))
  | _ => True

end Record

/-! ## The parts -/

/-- The bytes in the buffer, oldest first. -/
def Pipe.items (pi : Pipe) : List UInt8 := Fifo.items PIPESIZE (2 ^ 32) pi.data pi.nread pi.nwrite

theorem sizes : Fifo.Sizes PIPESIZE (2 ^ 32) := ⟨by decide, by decide, by decide⟩

/-- What process `i` knows is so. -/
structure Knows (s : St n) (i : Fin n) (l : Gh n) : Prop where
  me : l.me = i
  mem : l.mem = s.mem i
  place : l.place = s.pc i
  held : l.held = true ↔ s.lock = some i
  known : l.held = true → ∀ pi, l.known = some pi → pi = s.pipe
  fresh : l.held = true → l.fresh = s.fresh

/-- The counters. -/
structure Counts (pi : Pipe) : Prop where
  head : pi.nread < 2 ^ 32
  tail : pi.nwrite < 2 ^ 32
  room : Fifo.count (2 ^ 32) pi.nread pi.nwrite ≤ PIPESIZE

/-- What the process with the lock has taken and not stored yet. -/
def inHand (s : St n) (L : Fin n → Gh n) : List UInt8 := ofHolder [] (·.hand.toList) s.lock L

theorem inHand_length {s : St n} {L : Fin n → Gh n} : (inHand s L).length ≤ 1 := by
  rw [inHand, ofHolder]
  cases s.lock with
  | none => exact Nat.zero_le 1
  | some i => exact Option.length_toList_le

/-- Who is known not to doze without need. -/
def fineNow (s : St n) (L : Fin n → Gh n) (chan : Chan) : Set (Fin n) := ofHolder Set.univ (·.fine chan) s.lock L

structure Inv (m : Mode) (tr : List (Ev n)) (s : St n) (L : Fin n → Gh n) : Prop where
  knows : ∀ i, Knows s i (L i)
  counts : Counts s.pipe
  order : dequeued tr ++ s.pipe.items = enqueued tr
  hand : m.mapped → dequeued tr = delivered tr ++ inHand s L
  called : ∀ i c, (L i).call = some c → ∃ mid, During i c mid tr ∧ sentBy i mid = (L i).sent ∧
    takenBy i mid = (L i).got ∧ storedBy i mid = (L i).kept
  orderly : Orderly Fits tr
  reads : m.mapped → ∀ p n' mapped, .read p n' mapped ∈ tr → mapped = true
  awake : m.strict → ∀ chan, ∀ p ∈ fineNow s L chan, (s.rest p).Dozes chan → s.pipe.Idle chan

section Steps

variable {m : Mode} {tr : List (Ev n)} {s s' : St n} {L : Fin n → Gh n} {i : Fin n} {a : Act n} {r : Res a}

theorem Inv.tells (h : Inv m tr s L) (ok : pre m a (L i)) (step : exec i a s r s') : tells a (L i) r := by
  obtain ⟨-, step⟩ := step
  have knows := h.knows i
  cases a with
  | pipe =>
    obtain ⟨rfl, -⟩ := step
    exact fun pi known => (knows.known ok pi known).symm
  | copyin va =>
    obtain ⟨rfl, -⟩ := step
    exact congrArg (Fs.copyin · va 1) knows.mem.symm
  | copyout va ch =>
    obtain ⟨rfl, -⟩ := step
    exact congrArg (fun mem => (Fs.copyout mem (va % 2 ^ 64) [ch]).2) knows.mem.symm
  | _ => trivial

/-! ### What the processes know -/

theorem Inv.knows_self (h : Inv m tr s L) (ok : pre m a (L i)) (step : exec i a s r s') :
    Knows s' i (next a (L i) r) := by
  obtain ⟨-, step⟩ := step
  have knows := h.knows i
  cases a with
  | acquire =>
    obtain ⟨-, rfl⟩ := step
    exact { knows with held := iff_of_true rfl rfl, known := by simp [next], fresh := fun _ => rfl }
  | release =>
    subst step
    exact { knows with held := iff_of_false (by simp [next]) (by simp), known := by simp [next], fresh := by simp [next] }
  | pipe =>
    obtain ⟨rfl, rfl⟩ := step
    exact { knows with known := fun _ pi known => (Option.some.inj known).symm }
  | killed =>
    obtain ⟨-, rfl⟩ := step
    rcases (L i).killed_cases r with same | woke
    · rwa [same]
    · rw [woke]
      exact { knows with }
  | sleep chan =>
    subst step
    exact { knows with held := iff_of_false (by simp [next]) (by simp), known := by simp [next], fresh := by simp [next] }
  | wakeOne chan p =>
    obtain ⟨-, rfl⟩ := step
    exact { knows with }
  | copyin va =>
    obtain ⟨-, rfl⟩ := step
    exact knows
  | put ch =>
    subst step
    refine { knows with known := fun held pi known => ?_, fresh := fun _ => rfl }
    obtain ⟨pi', known', rfl⟩ := Option.map_eq_some_iff.mp known
    rw [knows.known held pi' known']
  | get =>
    obtain ⟨-, rfl⟩ := step
    refine { knows with known := fun held pi known => ?_ }
    obtain ⟨pi', known', rfl⟩ := Option.map_eq_some_iff.mp known
    rw [knows.known held pi' known']
  | copyout va ch =>
    obtain ⟨-, rfl⟩ := step
    refine { knows with mem := ?_ }
    simp [next, knows.mem]
  | close writable =>
    subst step
    refine { knows with known := fun held pi known => ?_ }
    obtain ⟨pi', known', rfl⟩ := Option.map_eq_some_iff.mp known
    rw [knows.known held pi' known']
  | enter call =>
    subst step
    cases call <;> exact { knows with }
  | goto place =>
    subst step
    exact { knows with place := by simp [next] }
  | kill p =>
    obtain ⟨-, rfl⟩ := step
    exact { knows with }
  | kfree | wrote r | took r =>
    subst step
    exact knows

/-- The others know what they knew. -/
theorem Inv.knows_other (h : Inv m tr s L) (ok : pre m a (L i)) (step : exec i a s r s') {j : Fin n} (ne : j ≠ i) :
    Knows s' j (L j) := by
  obtain ⟨-, step⟩ := step
  have knows := h.knows j
  have mine := (h.knows i).held
  -- a process without the lock does not care for what the lock protects
  have frame : s'.mem j = s.mem j → s'.pc j = s.pc j → s.lock ≠ some j → s'.lock ≠ some j → Knows s' j (L j) := by
    intro mem pc before after
    have free : ¬(L j).held = true := fun held => before (knows.held.mp held)
    exact ⟨knows.me, knows.mem.trans mem.symm, knows.place.trans pc.symm, iff_of_false free after,
      fun held => absurd held free, fun held => absurd held free⟩
  have locked : (L i).held = true → s.lock ≠ some j := by
    intro held same
    rw [mine.mp held] at same
    exact ne (Option.some.inj same).symm
  cases a with
  | acquire =>
    obtain ⟨free, rfl⟩ := step
    exact frame rfl rfl (by rw [free]; nofun) (by simpa using ne.symm)
  | release =>
    subst step
    exact frame rfl rfl (locked ok.held) nofun
  | sleep chan =>
    subst step
    exact frame rfl rfl (locked ok.1.held) nofun
  | put ch =>
    subst step
    exact frame rfl rfl (locked ok.1) (locked ok.1)
  | get =>
    obtain ⟨-, rfl⟩ := step
    exact frame rfl rfl (locked ok.1) (locked ok.1)
  | close writable =>
    subst step
    exact frame rfl rfl (locked ok) (locked ok)
  | copyout va ch =>
    obtain ⟨-, rfl⟩ := step
    exact frame (Function.update_of_ne ne _ _) rfl (locked ok.1) (locked ok.1)
  | goto place =>
    subst step
    exact { knows with place := knows.place.trans (Function.update_of_ne ne _ _).symm }
  | pipe | killed | copyin va | wakeOne chan p | kill p =>
    obtain ⟨-, rfl⟩ := step
    exact { knows with }
  | kfree | enter call | wrote r | took r =>
    subst step
    exact knows

/-! ### The ring -/

theorem Counts.put {pi : Pipe} (counts : Counts pi) (ch : UInt8) (room : pi.nwrite ≠ (pi.nread + PIPESIZE) % 2 ^ 32) :
    Counts (pi.put ch) ∧ (pi.put ch).items = pi.items ++ [ch] := by
  have less : Fifo.count (2 ^ 32) pi.nread pi.nwrite < PIPESIZE :=
    lt_of_le_of_ne counts.room fun full => room ((Fifo.count_eq_iff sizes counts.head counts.tail).mp full)
  have small : PIPESIZE < 2 ^ 32 := by decide
  constructor
  · refine ⟨counts.head, Nat.mod_lt _ (by decide), ?_⟩
    refine (Fifo.count_push counts.head counts.tail ?_).trans_le less
    omega
  · exact Fifo.items_push sizes counts.head counts.tail less ch

theorem Counts.got {pi : Pipe} (counts : Counts pi) (data : pi.nread ≠ pi.nwrite) :
    Counts pi.got ∧ pi.items = pi.get :: pi.got.items := by
  have some : 0 < Fifo.count (2 ^ 32) pi.nread pi.nwrite :=
    Nat.pos_of_ne_zero fun none => data ((Fifo.count_eq_zero_iff counts.head counts.tail).mp none)
  have less := Fifo.count_pop counts.head counts.tail some
  constructor
  · refine ⟨Nat.mod_lt _ (by decide), counts.tail, ?_⟩
    have room := counts.room
    simp only [Pipe.got] at less ⊢
    omega
  · rw [Pipe.items, Fifo.items_pop sizes counts.head counts.tail some]
    rfl

theorem Counts.close {pi : Pipe} (counts : Counts pi) (writable : Bool) :
    Counts (pi.close writable) ∧ (pi.close writable).items = pi.items := by
  cases writable <;> exact ⟨⟨counts.head, counts.tail, counts.room⟩, rfl⟩

theorem Inv.queue_step (h : Inv m tr s L) (ok : pre m a (L i)) (step : exec i a s r s') :
    Counts s'.pipe ∧ dequeued (tr ++ obs i a s) ++ s'.pipe.items = enqueued (tr ++ obs i a s) := by
  obtain ⟨-, step⟩ := step
  have moves : ∀ out into, dequeued (obs i a s) = out → enqueued (obs i a s) = into → Counts s'.pipe →
      out ++ s'.pipe.items = s.pipe.items ++ into →
      Counts s'.pipe ∧ dequeued (tr ++ obs i a s) ++ s'.pipe.items = enqueued (tr ++ obs i a s) := by
    rintro out into rfl rfl counts items
    rw [dequeued_append, enqueued_append, ← h.order, List.append_assoc, List.append_assoc, items]
    exact ⟨counts, rfl⟩
  have same : s'.pipe = s.pipe → dequeued (obs i a s) = [] → enqueued (obs i a s) = [] →
      Counts s'.pipe ∧ dequeued (tr ++ obs i a s) ++ s'.pipe.items = enqueued (tr ++ obs i a s) := by
    intro pipe out into
    refine moves [] [] out into (pipe ▸ h.counts) ?_
    rw [pipe, List.append_nil, List.nil_append]
  cases a with
  | put ch =>
    obtain ⟨held, ⟨pi, known, room⟩, -⟩ := ok
    obtain rfl := (h.knows i).known held pi known
    obtain ⟨counts, items⟩ := h.counts.put ch room
    subst step
    exact moves [] [ch] rfl rfl counts ((List.nil_append _).trans items)
  | get =>
    obtain ⟨held, -, pi, known, data⟩ := ok
    obtain rfl := (h.knows i).known held pi known
    obtain ⟨counts, items⟩ := h.counts.got data
    obtain ⟨-, rfl⟩ := step
    refine moves [s.pipe.get] [] rfl rfl counts ?_
    rw [List.singleton_append, List.append_nil]
    exact items.symm
  | close writable =>
    obtain ⟨counts, items⟩ := h.counts.close writable
    subst step
    exact moves [] [] rfl rfl counts ((List.nil_append _).trans (items.trans (List.append_nil _).symm))
  | copyout va ch =>
    obtain ⟨-, rfl⟩ := step
    refine same rfl ?_ ?_ <;> simp only [obs] <;> split <;> rfl
  | enter call =>
    subst step
    cases call <;> exact same rfl rfl rfl
  | acquire | pipe | killed | copyin va | wakeOne chan p | kill p =>
    obtain ⟨-, rfl⟩ := step
    exact same rfl rfl rfl
  | _ =>
    subst step
    exact same rfl rfl rfl

theorem Inv.hand_step (h : Inv m tr s L) (ok : pre m a (L i)) (step : exec i a s r s') (mapped : m.mapped) :
    dequeued (tr ++ obs i a s) = delivered (tr ++ obs i a s) ++ inHand s' (Function.update L i (next a (L i) r)) := by
  obtain ⟨-, step⟩ := step
  have hand := h.hand mapped
  have mine := (h.knows i).held
  have same : inHand s' (Function.update L i (next a (L i) r)) = inHand s L → dequeued (obs i a s) = [] →
      delivered (obs i a s) = [] → dequeued (tr ++ obs i a s) =
        delivered (tr ++ obs i a s) ++ inHand s' (Function.update L i (next a (L i) r)) := by
    intro keep out stored
    rw [keep, dequeued_append, delivered_append, out, stored, List.append_nil, List.append_nil]
    exact hand
  have own : (L i).held = true → inHand s L = (L i).hand.toList := fun held => ofHolder_held (mine.mp held)
  have now : s'.lock = some i → inHand s' (Function.update L i (next a (L i) r)) = (next a (L i) r).hand.toList :=
    ofHolder_update
  cases a with
  | acquire =>
    obtain ⟨free, rfl⟩ := step
    refine same ?_ rfl rfl
    rw [inHand, inHand, ofHolder_free free]
    exact ofHolder_update rfl
  | release =>
    subst step
    refine same ?_ rfl rfl
    rw [own ok.held, ok.hand mapped]
    exact ofHolder_free rfl
  | sleep chan =>
    subst step
    refine same ?_ rfl rfl
    rw [own ok.1.held, ok.1.hand mapped]
    exact ofHolder_free rfl
  | killed =>
    obtain ⟨-, rfl⟩ := step
    refine same (ofHolder_frame rfl ?_) rfl rfl
    rcases (L i).killed_cases r with keep | woke
    · rw [keep]
    · rw [woke]
      rfl
  | get =>
    obtain ⟨held, empty, -⟩ := ok
    obtain ⟨rfl, rfl⟩ := step
    rw [own held, empty mapped, Option.toList_none, List.append_nil] at hand
    rw [now (mine.mp held), dequeued_append, hand]
    simp [obs, next, dequeued, delivered]
  | copyout va ch =>
    obtain ⟨held, covers⟩ := ok
    obtain ⟨taken, covers⟩ := covers mapped
    obtain ⟨-, rfl⟩ := step
    have stored := (Fs.copyout_ok (Nat.mod_lt _ (by decide)) (show [ch].length ≤ 2 ^ 64 by simp)
      (Fs.UMem.covers_mod.mpr covers)).1
    rw [(h.knows i).mem] at stored
    rw [own held, taken, Option.toList_some] at hand
    rw [now (mine.mp held)]
    simp only [obs, if_pos stored, dequeued_append, delivered_append, hand, next, Option.toList_none, List.append_nil]
    simp [dequeued, delivered]
  | enter call =>
    subst step
    cases call <;> exact same (ofHolder_frame rfl rfl) rfl rfl
  | put ch | close writable | kfree | wrote r | took r | goto place =>
    subst step
    exact same (ofHolder_frame rfl rfl) rfl rfl
  | pipe | copyin va | wakeOne chan p | kill p =>
    obtain ⟨-, rfl⟩ := step
    exact same (ofHolder_frame rfl rfl) rfl rfl

/-! ### The record -/

/-- What one process does is recorded as its own. -/
theorem obs_other {j : Fin n} (ne : j ≠ i) : (∀ e ∈ obs i a s, ¬e.Begins j) ∧ sentBy j (obs i a s) = [] ∧
    takenBy j (obs i a s) = [] ∧ storedBy j (obs i a s) = [] := by
  cases a with
  | enter call => cases call <;> simp [obs, Ev.Begins, sentBy, takenBy, storedBy, ne.symm]
  | copyout va ch =>
    simp only [obs]
    split <;> simp [Ev.Begins, sentBy, takenBy, storedBy, ne.symm]
  | _ => simp [obs, Ev.Begins, sentBy, takenBy, storedBy, ne.symm]

/-- A step within a call, and the bytes it moves. -/
theorem Inv.obs_self (h : Inv m tr s L) (ok : pre m a (L i)) (step : exec i a s r s') (within : ∀ c, a ≠ .enter c) :
    (∀ e ∈ obs i a s, ¬e.Begins i) ∧ (next a (L i) r).call = (L i).call ∧
    (next a (L i) r).sent = (L i).sent ++ sentBy i (obs i a s) ∧
    (next a (L i) r).got = (L i).got ++ takenBy i (obs i a s) ∧
    (next a (L i) r).kept = (L i).kept ++ storedBy i (obs i a s) := by
  have told := h.tells ok step
  obtain ⟨-, step⟩ := step
  cases a with
  | enter call => exact absurd rfl (within call)
  | killed =>
    rcases (L i).killed_cases r with same | woke
    · rw [same]
      simp [obs, sentBy, takenBy, storedBy]
    · rw [woke]
      simp [obs, sentBy, takenBy, storedBy]
  | get =>
    obtain ⟨rfl, -⟩ := step
    simp [obs, next, Ev.Begins, sentBy, takenBy, storedBy]
  | copyout va ch =>
    obtain ⟨rfl, -⟩ := step
    simp only [obs, next]
    split <;> simp [Ev.Begins, sentBy, takenBy, storedBy]
  | _ => simp [obs, next, Ev.Begins, sentBy, takenBy, storedBy]

theorem Inv.called_step (h : Inv m tr s L) (ok : pre m a (L i)) (step : exec i a s r s') (j : Fin n) (c : Ev n)
    (call : (Function.update L i (next a (L i) r) j).call = some c) :
    ∃ mid, During j c mid (tr ++ obs i a s) ∧ sentBy j mid = (Function.update L i (next a (L i) r) j).sent ∧
      takenBy j mid = (Function.update L i (next a (L i) r) j).got ∧
      storedBy j mid = (Function.update L i (next a (L i) r) j).kept := by
  by_cases ne : j = i
  · subst ne
    simp only [Function.update_self] at call ⊢
    by_cases begins : ∃ c, a = .enter c
    · obtain ⟨call', rfl⟩ := begins
      have me := (h.knows j).me
      have mem := (h.knows j).mem
      cases call' <;>
      · obtain rfl := Option.some.inj call
        simp only [me, mem]
        exact ⟨[], .start, rfl, rfl, rfl⟩
    · obtain ⟨other, same, sent, got, kept⟩ := h.obs_self ok step fun c e => begins ⟨c, e⟩
      rw [same] at call
      obtain ⟨mid, during, hs, hg, hk⟩ := h.called j c call
      exact ⟨mid ++ obs j a s, during.append other, by rw [sentBy_append, hs, sent], by rw [takenBy_append, hg, got],
        by rw [storedBy_append, hk, kept]⟩
  · simp only [Function.update_of_ne ne] at call ⊢
    obtain ⟨mid, during, hs, hg, hk⟩ := h.called j c call
    obtain ⟨other, sent, got, kept⟩ := obs_other (a := a) (s := s) ne
    exact ⟨mid ++ obs i a s, during.append other, by rw [sentBy_append, hs, sent, List.append_nil],
      by rw [takenBy_append, hg, got, List.append_nil], by rw [storedBy_append, hk, kept, List.append_nil]⟩

theorem Inv.orderly_step (h : Inv m tr s L) (ok : pre m a (L i)) : Orderly Fits (tr ++ obs i a s) := by
  have me := (h.knows i).me
  have silent : obs i a s = [] → Orderly Fits (tr ++ obs i a s) := by
    intro none
    rw [none, List.append_nil]
    exact h.orderly
  cases a with
  | put ch =>
    obtain ⟨-, -, bytes, call, within⟩ := ok
    rw [me] at call
    obtain ⟨mid, during, sent, -⟩ := h.called i _ call
    exact h.orderly.append ⟨bytes, mid, during, by rwa [sent]⟩
  | wrote r =>
    obtain ⟨bytes, call, result⟩ := ok
    rw [me] at call
    obtain ⟨mid, during, sent, -⟩ := h.called i _ call
    exact h.orderly.append ⟨bytes, mid, during, by rwa [sent]⟩
  | took r =>
    obtain ⟨held, n', mapped, call, result⟩ := ok
    rw [me] at call
    obtain ⟨mid, during, -, got, kept⟩ := h.called i _ call
    refine h.orderly.append ⟨n', mapped, mid, during, fun yes nonneg => ?_⟩
    obtain ⟨number, same, zero⟩ := result yes nonneg
    refine ⟨by rwa [got], by rw [kept, same, got], fun none pos => ?_⟩
    obtain ⟨pi, known, empty, closed⟩ := zero none pos
    obtain rfl := (h.knows i).known held pi known
    exact ⟨decide_eq_true empty, closed⟩
  | enter call => cases call <;> exact h.orderly.append trivial
  | get | kfree => exact h.orderly.append trivial
  | copyout va ch =>
    simp only [obs]
    split
    · exact h.orderly.append trivial
    · rw [List.append_nil]
      exact h.orderly
  | _ => exact silent rfl

theorem Inv.reads_step (h : Inv m tr s L) (ok : pre m a (L i)) (all : m.mapped) (p : Fin n) (n' : Int) (mapped : Bool)
    (mem : .read p n' mapped ∈ tr ++ obs i a s) : mapped = true := by
  rcases List.mem_append.mp mem with old | new
  · exact h.reads all p n' mapped old
  cases a with
  | enter call =>
    cases call with
    | write addr n' => simp [obs] at new
    | read addr k =>
      obtain ⟨-, -, rfl⟩ : p = i ∧ n' = k ∧ mapped = decide ((s.mem i).Covers addr k.toNat) := by simpa [obs] using new
      have covers := ok.2 all
      rw [(h.knows i).mem] at covers
      exact decide_eq_true covers
  | copyout va ch =>
    simp only [obs] at new
    split at new <;> simp at new
  | _ => simp [obs] at new

/-! ### Sleepers -/

/-- A killed writer has nothing to announce: it has put no byte into the pipe since it took the lock,
or nobody waits for one. -/
def Calm (i : Fin n) : Act n → St n → Prop
  | .killed, s => s.killed i = true → s.fresh = true → ∀ p, ¬(s.rest p).Dozes .nread
  | _, _ => True

theorem Inv.awake_step (h : Inv m tr s L) (ok : pre m a (L i)) (step : exec i a s r s') (strict : m.strict)
    (calm : Calm i a s) (chan : Chan) (p : Fin n)
    (fine : p ∈ fineNow s' (Function.update L i (next a (L i) r)) chan) (dozes : (s'.rest p).Dozes chan) :
    s'.pipe.Idle chan := by
  obtain ⟨up, step⟩ := step
  have awake := h.awake strict chan p
  have mine := (h.knows i).held
  have frame : s'.lock = s.lock → s'.pipe = s.pipe → ((s'.rest p).Dozes chan → (s.rest p).Dozes chan) →
      (next a (L i) r).fine chan = (L i).fine chan → s'.pipe.Idle chan := by
    intro lock pipe rest same
    rw [pipe]
    refine awake ?_ (rest dozes)
    rwa [fineNow, ofHolder_frame lock same] at fine
  have own : (L i).held = true → fineNow s L chan = (L i).fine chan := fun held => ofHolder_held (mine.mp held)
  have now : s'.lock = some i → fineNow s' (Function.update L i (next a (L i) r)) chan = (next a (L i) r).fine chan :=
    ofHolder_update
  have self : (s.rest i).Dozes chan → False := by
    rw [up]
    exact Rest.not_dozes_awake
  cases a with
  | acquire =>
    obtain ⟨free, rfl⟩ := step
    exact awake (by rw [fineNow, ofHolder_free free]; trivial) dozes
  | release =>
    subst step
    exact awake (by rw [own ok.held, ok.fine strict]; trivial) dozes
  | sleep chan' =>
    obtain ⟨leaves, pi, known, idle⟩ := ok
    obtain rfl := (h.knows i).known leaves.held pi known
    subst step
    by_cases e : p = i
    · subst e
      have at_p : (.falling chan' : Rest Chan).Dozes chan := by simpa using dozes
      obtain rfl : chan' = chan := by simpa [Rest.Dozes] using at_p
      exact idle
    · exact awake (by rw [own leaves.held, leaves.fine strict]; trivial) (by simpa [e] using dozes)
  | wakeOne chan' q =>
    obtain ⟨free, rfl⟩ := step
    rw [now (mine.mp ok)] at fine
    by_cases e : p = q
    · subst e
      have at_p : ((s.rest p).wake chan').Dozes chan := by simpa using dozes
      by_cases c : chan = chan'
      · subst c
        exact absurd at_p (Rest.not_dozes_wake free)
      · exact awake (by rw [own ok]; simpa [next, c] using fine) at_p.of_wake
    · refine awake ?_ (by simpa [e] using dozes)
      rw [own ok]
      by_cases c : chan = chan'
      · subst c
        simpa [next, e] using fine
      · simpa [next, c] using fine
  | put ch =>
    obtain ⟨held, ⟨pi, known, room⟩, -⟩ := ok
    obtain rfl := (h.knows i).known held pi known
    subst step
    rw [now (mine.mp held)] at fine
    cases chan with
    | nread =>
      obtain rfl : p = i := by simpa [next, (h.knows i).me] using fine
      exact (self dozes).elim
    | nwrite => exact absurd (awake (by rw [own held]; simpa [next] using fine) dozes).1 room
  | get =>
    obtain ⟨held, -, pi, known, data⟩ := ok
    obtain rfl := (h.knows i).known held pi known
    obtain ⟨-, rfl⟩ := step
    rw [now (mine.mp held)] at fine
    cases chan with
    | nread => exact absurd (awake (by rw [own held]; simpa [next] using fine) dozes).1 data
    | nwrite =>
      obtain rfl : p = i := by simpa [next, (h.knows i).me] using fine
      exact (self dozes).elim
  | close writable =>
    subst step
    rw [now (mine.mp ok)] at fine
    by_cases c : chan = if writable then .nread else .nwrite
    · subst c
      obtain rfl : p = i := by simpa [next, (h.knows i).me] using fine
      exact (self dozes).elim
    · have idle := awake (by rw [own ok]; simpa [next, c] using fine) dozes
      cases writable <;> cases chan
      · exact idle
      · exact absurd rfl c
      · exact absurd rfl c
      · exact idle
  | killed =>
    obtain ⟨rfl, rfl⟩ := step
    by_cases both : s'.killed i = true ∧ (L i).fresh = true
    · rw [(h.knows i).fresh ok] at both
      cases chan with
      | nread => exact absurd dozes (calm both.1 both.2 p)
      | nwrite =>
        refine frame rfl rfl id ?_
        rcases (L i).killed_cases (s'.killed i) with same | woke
        · rw [same]
        · rw [woke]
          simp
    · exact frame rfl rfl id (by rw [show next .killed (L i) (s'.killed i) = L i from if_neg both])
  | kill q =>
    obtain ⟨-, rfl⟩ := step
    refine frame rfl rfl (fun d => ?_) rfl
    by_cases e : p = q
    · subst e
      exact Rest.Dozes.of_rouse (by simpa using d)
    · simpa [e] using d
  | enter call =>
    subst step
    cases call <;> exact frame rfl rfl id rfl
  | pipe | copyin va | copyout va ch =>
    obtain ⟨-, rfl⟩ := step
    exact frame rfl rfl id rfl
  | kfree | wrote r | took r | goto place =>
    subst step
    exact frame rfl rfl id rfl

/-! ### All of it -/

theorem Inv.step (h : Inv m tr s L) (ok : pre m a (L i)) (step : exec i a s r s') (calm : m.strict → Calm i a s) :
    Inv m (tr ++ obs i a s) s' (Function.update L i (next a (L i) r)) where
  knows j := by
    by_cases ne : j = i
    · subst ne
      rw [Function.update_self]
      exact h.knows_self ok step
    · rw [Function.update_of_ne ne]
      exact h.knows_other ok step ne
  counts := (h.queue_step ok step).1
  order := (h.queue_step ok step).2
  hand := h.hand_step ok step
  called := h.called_step ok step
  orderly := h.orderly_step ok
  reads := h.reads_step ok
  awake strict := h.awake_step ok step strict (calm strict)

end Steps

end Xv6.Pipes
