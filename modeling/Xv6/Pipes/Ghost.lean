import Xv6.Pipes.Model

/-!
# What a process knows while it is in the pipe code

The ghost state of a process says whether it holds `pi->lock`, what it has read of the pipe since it
took the lock, and how far its call has come. `fine chan` are processes that, as far as the holder
of the lock knows, do not sleep on `chan` without need: all of them when it takes the lock, only
itself after a change that calls for a `wakeup`, and again one more after each round of `wakeup`.

A `Mode` says what the environment grants: that callers pass mapped addresses, and that no killed
writer returns with bytes it has not announced.
-/

namespace Xv6.Pipes

open Interleave

structure Mode where
  mapped : Prop
  strict : Prop

structure Gh (n : Nat) where
  me : Fin n
  mem : Fs.UMem
  place : Label
  /-- `pi->lock` -/
  held : Bool
  /-- The pipe, if it was read since the lock was taken. -/
  known : Option Pipe
  fresh : Bool
  /-- How the call began. -/
  call : Option (Ev n)
  /-- The bytes that this call has put into the pipe. -/
  sent : List UInt8
  /-- The bytes that this call has taken out of the pipe. -/
  got : List UInt8
  /-- The bytes that this call has stored. -/
  kept : List UInt8
  /-- The byte that is not yet in the memory of the reader. -/
  hand : Option UInt8
  fine : Chan → Set (Fin n)

/-- What `pipewrite` and `piperead` sleep for. -/
def Pipe.Idle (pi : Pipe) : Chan → Prop
  | .nread => pi.nread = pi.nwrite ∧ pi.writeopen = true
  | .nwrite => pi.nwrite = (pi.nread + PIPESIZE) % 2 ^ 32 ∧ pi.readopen = true

section Rules

variable {n : Nat}

/-- The lock may be given up. -/
structure Gh.Leaves (m : Mode) (l : Gh n) : Prop where
  held : l.held = true
  hand : m.mapped → l.hand = none
  fine : m.strict → ∀ chan, l.fine chan = Set.univ

/-- The lock is taken. -/
@[simps] def Gh.locked (l : Gh n) : Gh n :=
  { l with held := true, known := none, fresh := false, hand := none, fine := fun _ => Set.univ }

@[simps] def Gh.woke (l : Gh n) (chan : Chan) : Gh n := { l with fine := Function.update l.fine chan Set.univ }

def pre (m : Mode) : Act n → Gh n → Prop
  | .acquire, l => l.held = false
  | .release, l => l.Leaves m
  | .pipe, l => l.held = true
  | .killed, l => l.held = true
  | .sleep chan, l => l.Leaves m ∧ ∃ pi, l.known = some pi ∧ pi.Idle chan
  | .wakeOne _ _, l => l.held = true
  | .put ch, l => l.held = true ∧ (∃ pi, l.known = some pi ∧ pi.nwrite ≠ (pi.nread + PIPESIZE) % 2 ^ 32) ∧
      ∃ bytes, l.call = some (.write l.me bytes) ∧ l.sent ++ [ch] <+: bytes
  | .get, l => l.held = true ∧ (m.mapped → l.hand = none) ∧ ∃ pi, l.known = some pi ∧ pi.nread ≠ pi.nwrite
  | .copyout va ch, l => l.held = true ∧ (m.mapped → l.hand = some ch ∧ l.mem.Covers va 1)
  | .close _, l => l.held = true
  | .enter (.write _ _), l => l.held = false
  | .enter (.read addr n'), l => l.held = false ∧ (m.mapped → l.mem.Covers addr n'.toNat)
  | .wrote r, l => ∃ bytes, l.call = some (.write l.me bytes) ∧ (0 ≤ r → r = l.sent.length)
  | .took r, l => l.held = true ∧ ∃ n' mapped, l.call = some (.read l.me n' mapped) ∧ (mapped = true → 0 ≤ r →
      r = l.got.length ∧ l.kept = l.got ∧
        (r = 0 → 0 < n' → ∃ pi, l.known = some pi ∧ pi.nread = pi.nwrite ∧ pi.writeopen = false))
  | _, _ => True

def tells : (a : Act n) → Gh n → Res a → Prop
  | .pipe, l, r => ∀ pi, l.known = some pi → r = pi
  | .copyin va, l, r => r = Fs.copyin l.mem va 1
  | .copyout va ch, l, r => r = (Fs.copyout l.mem (va % 2 ^ 64) [ch]).2
  | _, _, _ => True

def next : (a : Act n) → Gh n → Res a → Gh n
  | .acquire, l, _ => l.locked
  | .release, l, _ => { l with held := false }
  | .pipe, l, r => { l with known := some r }
  -- in a strict run nobody waits for the bytes that a killed writer leaves
  | .killed, l, r => if r = true ∧ l.fresh = true then l.woke .nread else l
  | .sleep _, l, _ => { l with held := false }
  | .wakeOne chan p, l, _ => { l with fine := Function.update l.fine chan (insert p (l.fine chan)) }
  | .put ch, l, _ => { l with known := l.known.map (·.put ch), fresh := true, sent := l.sent ++ [ch]
                              fine := Function.update l.fine .nread {l.me} }
  | .get, l, r => { l with known := l.known.map Pipe.got, got := l.got ++ [r], hand := some r
                           fine := Function.update l.fine .nwrite {l.me} }
  | .copyout va ch, l, r => { l with mem := (Fs.copyout l.mem (va % 2 ^ 64) [ch]).1, hand := none
                                     kept := if r = true then l.kept ++ [ch] else l.kept }
  | .close writable, l, _ =>
    { l with known := l.known.map (·.close writable)
             fine := Function.update l.fine (if writable then .nread else .nwrite) {l.me} }
  | .enter (.write addr n'), l, _ =>
    { l with call := some (.write l.me (l.mem.bytes addr n'.toNat)), sent := [], got := [], kept := [] }
  | .enter (.read addr n'), l, _ =>
    { l with call := some (.read l.me n' (l.mem.Covers addr n'.toNat)), sent := [], got := [], kept := [] }
  | .goto place, l, _ => { l with place := place }
  | _, l, _ => l

def rules (m : Mode) : Rules (Act n) Res (Gh n) where
  pre := pre m
  tells := tells
  next := next

theorem Gh.killed_cases (l : Gh n) (r : Bool) : next .killed l r = l ∨ next .killed l r = l.woke .nread := by
  simp only [next]
  split
  · exact Or.inr rfl
  · exact Or.inl rfl

/-! ## Places between two pieces of code -/

/-- `pipewrite` with `todo` bytes to go. -/
structure Gh.Writing (m : Mode) (l : Gh n) (addr : Nat) (n' : Int) (todo : Nat) : Prop where
  held : l.held = true
  call : l.call = some (.write l.me (l.mem.bytes addr n'.toNat))
  left : todo ≤ n'.toNat
  sent : l.sent = l.mem.bytes addr (n'.toNat - todo)
  hand : m.mapped → l.hand = none
  room : l.fine .nwrite = Set.univ
  mine : l.me ∈ l.fine .nread
  calm : l.fresh = false → l.fine .nread = Set.univ
  opened : l.fresh = true → ∃ pi, l.known = some pi ∧ pi.readopen = true

/-- `piperead` with `todo` bytes to go. -/
structure Gh.Reading (m : Mode) (l : Gh n) (addr : Nat) (n' : Int) (mapped : Bool) (todo : Nat) : Prop where
  held : l.held = true
  call : l.call = some (.read l.me n' mapped)
  left : todo ≤ n'.toNat
  got : mapped = true → l.got.length = n'.toNat - todo
  kept : mapped = true → l.kept = l.got
  hand : m.mapped → l.hand = none
  covers : mapped = true → l.mem.Covers addr n'.toNat
  all : m.mapped → mapped = true
  data : l.fine .nread = Set.univ
  mine : l.me ∈ l.fine .nwrite

/-- `piperead` before it looks for data. -/
structure Gh.Waiting (m : Mode) (l : Gh n) (addr : Nat) (n' : Int) (mapped : Bool) : Prop
    extends l.Reading m addr n' mapped n'.toNat where
  room : l.fine .nwrite = Set.univ

/-- Between two pieces of code. -/
def Gh.Rests (m : Mode) (l : Gh n) : Prop :=
  match l.place with
  | .user => l.held = false
  | .writing addr n' todo => l.Writing m addr n' todo
  | .reading addr n' => ∃ mapped, l.Waiting m addr n' mapped

end Rules

/-! ## The code -/

section Code

variable {n : Nat} {m : Mode} {l : Gh n} {addr todo : Nat} {n' : Int} {mapped : Bool}

theorem wakeup_does {chan : Chan} (held : l.held = true) (mine : l.me ∈ l.fine chan) :
    (rules m).Does (wakeup l.me chan) l (l.woke chan) := by
  -- after `done` the processes in `S` are fine, and nothing else has moved
  have loop := @Rules.wp_forEach _ _ _ _ (rules m) (wakeupOne l.me chan)
    (fun done g => ∃ S, g = { l with fine := Function.update l.fine chan S } ∧ l.fine chan ∪ done \ {l.me} ⊆ S) ?_
    (List.finRange n) ∅ l ⟨l.fine chan, by simp, by simp⟩
  · refine Rules.wp_mono loop ?_
    rintro ⟨⟩ g ⟨S, rfl, all⟩
    obtain rfl : S = Set.univ := by
      refine Set.eq_univ_of_forall fun p => all ?_
      by_cases e : p = l.me
      · exact Or.inl (e ▸ mine)
      · exact Or.inr ⟨by simp, e⟩
    rfl
  · rintro p done g ⟨S, rfl, some⟩
    rw [wakeupOne]
    split
    · refine Rules.wp_last (G := rules m) (a := .wakeOne chan p) held fun _ _ => ⟨insert p S, ?_, ?_⟩
      · simp [rules, next]
      · rintro q (old | ⟨rfl | old, other⟩)
        · exact Or.inr (some (Or.inl old))
        · exact Or.inl rfl
        · exact Or.inr (some (Or.inr ⟨old, other⟩))
    · rename_i self
      refine Rules.wp_ret (G := rules m) ⟨S, rfl, ?_⟩
      rintro q (old | ⟨rfl | old, other⟩)
      · exact some (Or.inl old)
      · exact absurd (not_not.mp self) other
      · exact some (Or.inr ⟨old, other⟩)

theorem sleep_does {chan : Chan} (leaves : l.Leaves m) (idle : ∃ pi, l.known = some pi ∧ pi.Idle chan) :
    (rules m).Does (sleep chan) l l.locked :=
  Rules.wp_act ⟨leaves, idle⟩ fun _ _ => Rules.wp_last rfl fun _ _ => rfl

/-- A call gives the lock up and ends. -/
theorem end_wp (leaves : l.Leaves m) :
    (rules m).wp (do req .release; req (.goto .user)) l fun _ g => g.Rests m :=
  Rules.wp_act leaves fun _ _ => Rules.wp_last trivial fun _ _ => rfl

theorem fine_univ {g : Gh n} (data : g.fine .nread = Set.univ) (room : g.fine .nwrite = Set.univ) (chan : Chan) :
    g.fine chan = Set.univ := by
  cases chan with
  | nread => exact data
  | nwrite => exact room

/-! ### `pipewrite` -/

theorem Gh.Writing.leaves (writing : l.Writing m addr n' todo) : (l.woke .nread).Leaves m where
  held := writing.held
  hand := writing.hand
  fine _ := fine_univ (by simp) (by simpa using writing.room)

theorem writeEnd_wp (writing : l.Writing m addr n' todo) :
    (rules m).wp (writeEnd l.me (n'.toNat - todo)) l fun _ g => g.Rests m := by
  refine Rules.wp_act ⟨_, writing.call, fun _ => ?_⟩ fun _ _ => ?_
  · rw [writing.sent, Fs.UMem.length_bytes]
  exact Rules.Does.then (wakeup_does writing.held writing.mine) fun _ => end_wp writing.leaves

theorem writeFail_wp {bytes : List UInt8} (call : l.call = some (.write l.me bytes)) (leaves : l.Leaves m) :
    (rules m).wp writeFail l fun _ g => g.Rests m :=
  Rules.wp_act (G := rules m) ⟨bytes, call, fun h => absurd h (by decide)⟩ fun _ _ => end_wp leaves

/-- The test at the head of the loop. -/
theorem stop_wp {Q : Bool → Gh n → Prop} {pi : Pipe} (writing : l.Writing m addr n' todo) (known : l.known = some pi)
    (fails : ∀ g : Gh n, g.Leaves m → g.call = l.call → g.me = l.me → Q true g)
    (goes : pi.readopen = true → Q false l) :
    (rules m).wp (if pi.readopen = false then pure true else killed) l Q := by
  have stale : l.fresh = false → Q true l := fun stale =>
    fails l ⟨writing.held, writing.hand, fun _ => fine_univ (writing.calm stale) writing.room⟩ rfl rfl
  split
  · rename_i closed
    refine Rules.wp_ret (G := rules m) (stale (Bool.eq_false_iff.mpr fun fresh => ?_))
    obtain ⟨pi', known', opened⟩ := writing.opened fresh
    rw [known] at known'
    cases known'
    rw [closed] at opened
    cases opened
  · rename_i opened
    refine Rules.wp_last (G := rules m) (a := .killed) writing.held fun r _ => ?_
    cases r with
    | false => exact goes (by simpa using opened)
    | true =>
      by_cases fresh : l.fresh = true
      · rw [show (rules m).next .killed l true = l.woke .nread from if_pos ⟨rfl, fresh⟩]
        exact fails _ writing.leaves rfl rfl
      · rw [show (rules m).next .killed l true = l from if_neg fun h => fresh h.2]
        exact stale (by simpa using fresh)

/-- The pipe is full. -/
theorem writeFull_wp {pi : Pipe} (writing : l.Writing m addr n' todo) (known : l.known = some pi)
    (idle : pi.Idle .nwrite) :
    (rules m).wp (do wakeup l.me .nread; sleep .nwrite; req (.goto (.writing addr n' todo))) l
      fun _ g => g.Rests m := by
  refine Rules.Does.then (wakeup_does writing.held writing.mine) fun _ => ?_
  refine Rules.Does.then (sleep_does writing.leaves ⟨pi, known, idle⟩) fun _ => ?_
  exact Rules.wp_last (G := rules m) trivial fun _ _ => { writing with
    held := rfl, hand := fun _ => rfl, room := rfl, mine := trivial, calm := fun _ => rfl, opened := nofun }

/-- A byte goes into the pipe. -/
theorem Gh.Writing.put {pi : Pipe} {ch : UInt8} (writing : l.Writing m addr n' (todo + 1))
    (known : l.known = some pi) (readopen : pi.readopen = true)
    (byte : l.mem.bytes (addr + (n'.toNat - (todo + 1))) 1 = [ch]) :
    (next (.put ch) l ()).Writing m addr n' todo ∧ l.sent ++ [ch] <+: l.mem.bytes addr n'.toNat := by
  have left := writing.left
  have sent : l.sent ++ [ch] = l.mem.bytes addr (n'.toNat - todo) := by
    rw [writing.sent, ← byte, ← Fs.UMem.bytes_add]
    congr 1
    omega
  constructor
  · exact { writing with
      left := by omega, sent := sent, room := by simpa [next] using writing.room, mine := by simp [next], calm := nofun
      opened := fun _ => ⟨pi.put ch, by simp [next, known], readopen⟩ }
  · refine ⟨l.mem.bytes (addr + (n'.toNat - todo)) todo, ?_⟩
    rw [sent, ← Fs.UMem.bytes_add]
    congr 1
    omega

/-- What `copyin` fetched. -/
theorem copyin_byte {mem : Fs.UMem} {va : Nat} {ch : List UInt8} {ok : Bool}
    (copied : (ch, ok) = Fs.copyin mem va 1) (good : ok = true) : mem.bytes va 1 = [ch.headD 0] := by
  have covers : mem.Covers va 1 := by
    rw [← Fs.copyin_ok_iff, ← copied]
    exact good
  obtain ⟨rfl, -⟩ := Prod.mk.inj (copied.trans (Fs.copyin_eq covers))
  rfl

theorem writeFrom_wp (writing : l.Writing m addr n' todo) :
    (rules m).wp (writeFrom l.me addr n' todo) l fun _ g => g.Rests m := by
  induction todo generalizing l with
  | zero => exact writeEnd_wp writing
  | succ todo ih =>
    refine Rules.wp_act writing.held fun pi told => ?_
    obtain ⟨g, hg⟩ : ∃ g : Gh n, g = { l with known := some pi } := ⟨_, rfl⟩
    have me : l.me = g.me := by rw [hg]
    have known : g.known = some pi := by rw [hg]
    have knows : g.Writing m addr n' (todo + 1) := by
      subst hg
      refine { writing with opened := fun fresh => ?_ }
      obtain ⟨pi', known', opened⟩ := writing.opened fresh
      exact ⟨pi, rfl, by rw [told pi' known']; exact opened⟩
    change (rules m).wp _ { l with known := some pi } _
    rw [← hg, me]
    clear hg me told writing
    refine Rules.wp_seq (stop_wp knows known (Q := fun r k => if r = true then k.Leaves m ∧ k.call = g.call ∧ k.me = g.me
      else k = g ∧ pi.readopen = true) (fun k leaves call me => ⟨leaves, call, me⟩) fun h => ⟨rfl, h⟩) ?_
    rintro (_ | _) k h
    · obtain ⟨rfl, readopen⟩ := h
      rw [if_neg (by decide)]
      split
      · rename_i full
        exact writeFull_wp knows known ⟨full, readopen⟩
      · rename_i room
        refine Rules.wp_act (a := Act.copyin _) trivial fun r copied => ?_
        obtain ⟨ch, ok⟩ := r
        dsimp only
        split
        · exact writeEnd_wp knows
        · rename_i good
          obtain ⟨then', within⟩ := knows.put known readopen (copyin_byte copied (by simpa using good))
          exact Rules.wp_act ⟨knows.held, ⟨pi, known, room⟩, _, knows.call, within⟩ fun _ _ => ih then'
    · obtain ⟨leaves, call, me⟩ := h
      rw [if_pos rfl]
      have same : k.call = some (.write k.me (g.mem.bytes addr n'.toNat)) := by rw [call, me, knows.call]
      exact writeFail_wp same leaves

theorem pipewrite_wp (away : l.held = false) :
    (rules m).wp (pipewrite l.me addr n') l fun _ g => g.Rests m := by
  refine Rules.wp_act away fun _ _ => Rules.wp_act away fun _ _ => ?_
  exact writeFrom_wp (l := next .acquire (next (.enter (.write addr n')) l ()) ()) {
    held := rfl, call := rfl, left := le_rfl, sent := by simp [next, Fs.UMem.bytes], hand := fun _ => rfl, room := rfl
    mine := trivial, calm := fun _ => rfl, opened := nofun }

/-! ### `piperead` -/

theorem Gh.Reading.leaves (reading : l.Reading m addr n' mapped todo) : (l.woke .nwrite).Leaves m where
  held := reading.held
  hand := reading.hand
  fine _ := fine_univ (by simpa using reading.data) (by simp)

theorem readEnd_wp (reading : l.Reading m addr n' mapped todo) (zero : mapped = true → n'.toNat = todo → 0 < n' →
      ∃ pi, l.known = some pi ∧ pi.nread = pi.nwrite ∧ pi.writeopen = false) :
    (rules m).wp (readEnd l.me (n'.toNat - todo)) l fun _ g => g.Rests m := by
  have left := reading.left
  refine Rules.wp_act ⟨reading.held, n', mapped, reading.call, fun yes _ => ⟨?_, reading.kept yes, fun none => ?_⟩⟩
    fun _ _ => ?_
  · rw [reading.got yes]
  · exact zero yes (by omega)
  · exact Rules.Does.then (wakeup_does reading.held reading.mine) fun _ => end_wp reading.leaves

/-- A byte goes to the reader. -/
theorem Gh.Reading.take (ch : UInt8) (va : Nat) (reading : l.Reading m addr n' mapped (todo + 1)) :
    (next (.copyout va ch) (next .get l ch) true).Reading m addr n' mapped todo where
  held := reading.held
  call := reading.call
  left := Nat.le_of_succ_le reading.left
  got yes := by
    have := reading.left
    have := reading.got yes
    simp only [next, List.length_append, List.length_singleton]
    omega
  kept yes := by
    simp only [next, if_true, reading.kept yes]
  hand _ := rfl
  covers yes := (reading.covers yes).copyout
  all := reading.all
  data := by simpa [next] using reading.data
  mine := by simp [next]

/-- A byte is lost. -/
theorem Gh.Reading.drop (ch : UInt8) (va : Nat) (reading : l.Reading m addr n' mapped todo) (no : mapped ≠ true) :
    (next (.copyout va ch) (next .get l ch) false).Reading m addr n' mapped todo where
  held := reading.held
  call := reading.call
  left := reading.left
  got yes := absurd yes no
  kept yes := absurd yes no
  hand _ := rfl
  covers yes := absurd yes no
  all := reading.all
  data := by simpa [next] using reading.data
  mine := by simp [next]

theorem readFrom_wp (reading : l.Reading m addr n' mapped todo)
    (begun : n'.toNat = todo → ∃ pi, l.known = some pi ∧ ¬(pi.nread = pi.nwrite ∧ pi.writeopen = true)) :
    (rules m).wp (readFrom l.me addr n' todo) l fun _ g => g.Rests m := by
  induction todo generalizing l with
  | zero => exact readEnd_wp reading fun _ none pos => by omega
  | succ todo ih =>
    have left := reading.left
    refine Rules.wp_act reading.held fun pi told => ?_
    obtain ⟨g, hg⟩ : ∃ g : Gh n, g = { l with known := some pi } := ⟨_, rfl⟩
    have me : l.me = g.me := by rw [hg]
    have known : g.known = some pi := by rw [hg]
    have knows : g.Reading m addr n' mapped (todo + 1) := by
      subst hg
      exact { reading with }
    have some : n'.toNat = todo + 1 → ¬(pi.nread = pi.nwrite ∧ pi.writeopen = true) := by
      intro first
      obtain ⟨pi', known', data⟩ := begun first
      rwa [← told pi' known'] at data
    change (rules m).wp _ { l with known := Option.some pi } _
    rw [← hg, me]
    clear hg me told reading begun
    split
    · rename_i empty
      refine readEnd_wp knows fun _ first _ => ⟨pi, known, empty, ?_⟩
      exact Bool.eq_false_iff.mpr fun writeopen => some first ⟨empty, writeopen⟩
    · rename_i data
      have covers := fun yes : mapped = true => (knows.covers yes).one (show n'.toNat - (todo + 1) < n'.toNat by omega)
      refine Rules.wp_act ⟨knows.held, knows.hand, pi, known, data⟩ fun ch _ => ?_
      refine Rules.wp_act ⟨knows.held, fun all => ⟨rfl, covers (knows.all all)⟩⟩ fun ok copied => ?_
      cases ok with
      | true => exact ih (knows.take ch _) fun first => by omega
      | false =>
        have no : mapped ≠ true := by
          intro yes
          have stored := Fs.copyout_ok (Nat.mod_lt _ (by decide)) (show [ch].length ≤ 2 ^ 64 by simp)
            (Fs.UMem.covers_mod.mpr (covers yes))
          exact Bool.false_ne_true (copied.trans stored.1)
        exact readEnd_wp (knows.drop ch _ no) fun yes => absurd yes no

theorem readFail_wp (call : l.call = some (.read l.me n' mapped)) (leaves : l.Leaves m) :
    (rules m).wp readFail l fun _ g => g.Rests m :=
  Rules.wp_act (G := rules m) ⟨leaves.held, n', mapped, call, fun _ h => absurd h (by decide)⟩ fun _ _ => end_wp leaves

theorem readWait_wp (waiting : l.Waiting m addr n' mapped) :
    (rules m).wp (readWait l.me addr n') l fun _ g => g.Rests m := by
  refine Rules.wp_act waiting.held fun pi _ => ?_
  have leaves : Gh.Leaves m { l with known := some pi } :=
    ⟨waiting.held, waiting.hand, fun _ => fine_univ waiting.data waiting.room⟩
  split
  · rename_i idle
    refine Rules.wp_act (a := Act.killed) waiting.held fun r _ => ?_
    cases r with
    | false =>
      refine Rules.Does.then (sleep_does leaves ⟨pi, rfl, idle⟩) fun _ => ?_
      exact Rules.wp_last (G := rules m) trivial fun _ _ => ⟨mapped, { waiting with
        held := rfl, hand := fun _ => rfl, data := rfl, mine := trivial, room := rfl }⟩
    | true =>
      change (rules m).wp readFail (next .killed { l with known := some pi } true) _
      rcases Gh.killed_cases { l with known := some pi } true with same | woke
      · rw [same]
        exact readFail_wp waiting.call leaves
      · rw [woke]
        exact readFail_wp waiting.call
          ⟨leaves.held, leaves.hand, fun _ => fine_univ (by simp) (by simpa using waiting.room)⟩
  · rename_i data
    exact readFrom_wp (l := { l with known := some pi }) { waiting with } fun _ => ⟨pi, rfl, data⟩

theorem piperead_wp (away : l.held = false) (covers : m.mapped → l.mem.Covers addr n'.toNat) :
    (rules m).wp (piperead l.me addr n') l fun _ g => g.Rests m := by
  refine Rules.wp_act ⟨away, covers⟩ fun _ _ => Rules.wp_act away fun _ _ => ?_
  have waiting : (next .acquire (next (.enter (.read addr n')) l ()) ()).Waiting m addr n' (l.mem.Covers addr n'.toNat) := {
    held := rfl, call := rfl, left := le_rfl, got := fun _ => by simp [next], kept := fun _ => rfl, hand := fun _ => rfl
    covers := fun yes => of_decide_eq_true yes, all := fun all => decide_eq_true (covers all), data := rfl, mine := trivial
    room := rfl }
  exact readWait_wp waiting

/-! ### `pipeclose` -/

theorem pipeclose_wp (away : l.held = false) (place : l.place = .user) (writable : Bool) :
    (rules m).wp (pipeclose l.me writable) l fun _ g => g.Rests m := by
  obtain ⟨g, hg⟩ : ∃ g : Gh n, g = next (.close writable) l.locked () := ⟨_, rfl⟩
  have ends : ∀ r : Gh n, r.place = .user → r.held = false → r.Rests m := by
    intro r user free
    rw [Gh.Rests, user]
    exact free
  refine Rules.wp_act away fun _ _ => Rules.wp_act rfl fun _ _ => ?_
  change (rules m).wp _ (next (.close writable) l.locked ()) _
  rw [← hg, show l.me = g.me by rw [hg]; rfl]
  have leaves : (g.woke (if writable then .nread else .nwrite)).Leaves m := by
    subst hg
    refine ⟨rfl, fun _ => rfl, fun _ chan => ?_⟩
    cases writable <;> cases chan <;> simp [next]
  refine Rules.Does.then (wakeup_does (by rw [hg]; rfl) (by rw [hg]; cases writable <;> simp [next])) fun _ => ?_
  refine Rules.wp_act leaves.held fun pi _ => ?_
  have user : g.place = .user := by
    rw [hg]
    exact place
  split
  · exact Rules.wp_act ⟨leaves.held, leaves.hand, leaves.fine⟩ fun _ _ => Rules.wp_last trivial fun _ _ => ends _ user rfl
  · exact Rules.wp_last ⟨leaves.held, leaves.hand, leaves.fine⟩ fun _ _ => ends _ user rfl

end Code

end Xv6.Pipes
