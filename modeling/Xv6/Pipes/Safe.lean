import Xv6.Pipes.Play
import Xv6.Pipes.Sound

/-!
# What the pipe guarantees
-/

namespace Xv6.Pipes

open Interleave

variable {n : Nat} {tr : List (Ev n)} {s : St n} {th : Fin n → Code n Unit}
variable {data : Nat → UInt8} {killed : Fin n → Bool} {mem : Fin n → Fs.UMem}

/-! ## A queue -/

/-- How an entry of the record relates to its call, when every destination is mapped: a byte enqueued
is the next one of those to be written, a result counts the bytes of its call, and `piperead` of
something returns 0 only at the end of the file. -/
def Counted (before : List (Ev n)) : Ev n → Prop
  | .enqueue p ch => ∃ bytes mid, During p (.write p bytes) mid before ∧ sentBy p mid ++ [ch] <+: bytes
  | .wrote p r => ∃ bytes mid, During p (.write p bytes) mid before ∧ (0 ≤ r → r = (sentBy p mid).length)
  | .took p r empty writeopen => ∃ n' mid, During p (.read p n' true) mid before ∧
      (0 ≤ r → r = (takenBy p mid).length ∧ (r = 0 → 0 < n' → empty = true ∧ writeopen = false))
  | _ => True

theorem Fits.counted {before : List (Ev n)} {e : Ev n} (fits : Fits before e)
    (reads : ∀ p n' mapped, .read p n' mapped ∈ before → mapped = true) : Counted before e := by
  cases e with
  | took p r empty writeopen =>
    obtain ⟨n', mapped, mid, during, result⟩ := fits
    obtain ⟨earlier, split⟩ := during.1
    obtain rfl := reads p n' mapped (by simp [split])
    refine ⟨n', mid, during, fun nonneg => ?_⟩
    obtain ⟨number, -, zero⟩ := result rfl nonneg
    exact ⟨number, zero⟩
  | _ => exact fits

/-- In every run in which processes pass mapped addresses, `nwrite - nread` is at most `PIPESIZE`;
the bytes delivered, a byte that a reader holding `pi->lock` is about to store, and the bytes in the
buffer are the bytes enqueued, in order; and the record is as `Counted` says. -/
theorem pipe_is_queue (run : (sys n Fs.UMem.Covers).Reach (start data killed mem) (fun _ => .ret ()) tr s th) :
    Fifo.count (2 ^ 32) s.pipe.nread s.pipe.nwrite ≤ PIPESIZE ∧
    (∃ hand : List UInt8, delivered tr ++ hand ++ s.pipe.items = enqueued tr ∧ hand.length ≤ 1 ∧
      (s.lock = none → hand = [])) ∧
    Orderly Counted tr := by
  obtain ⟨L, inv⟩ := reach_inv ⟨True, False⟩ (fun _ _ _ _ ok => ok) nofun (unrestricted run)
  refine ⟨inv.counts.room, ⟨inHand s L, ?_, ?_, ?_⟩, ?_⟩
  · rw [← inv.hand trivial]
    exact inv.order
  · exact inHand_length
  · exact fun free => ofHolder_free free
  · intro before e after split
    refine (inv.orderly before e after split).counted fun p n' mapped mem => ?_
    exact inv.reads trivial p n' mapped (split ▸ List.mem_append_left _ mem)

/-- Memory that is mapped up to 4096, and all of it holds 7. -/
def onePage : Fs.UMem := fun page => if page = 0 then some fun _ => 7 else none

/-- Process 0 writes two bytes and reads one of them. -/
def writeRead : List (Cmd (Fin 1) (Move 1)) :=
  let me : Fin 1 := ⟨0, Nat.one_pos⟩
  .start (.write me 0 2) :: List.replicate 13 (.step me) ++ .start (.read me 64 1) :: List.replicate 9 (.step me)

theorem pipe_is_queue_writeRead : ∃ (tr : List (Ev 1)) (s : St 1) (th : Fin 1 → Code 1 Unit),
    (sys 1 Fs.UMem.Covers).Reach (start (fun _ => 0) (fun _ => false) fun _ => onePage) (fun _ => .ret ()) tr s th ∧
    tr = [.write 0 [7, 7], .enqueue 0 7, .enqueue 0 7, .wrote 0 2, .read 0 1 true, .dequeue 0 7, .deliver 0 64 7,
      .took 0 1 false true] ∧
    Fifo.count (2 ^ 32) s.pipe.nread s.pipe.nwrite ≤ PIPESIZE ∧ Orderly Counted tr := by
  obtain ⟨tr, s, th, run, h⟩ := (engine Fs.UMem.Covers).exists_reach (fun _ _ _ => true) writeRead
    (start (fun _ => 0) (fun _ => false) fun _ => onePage) (fun _ => .ret ())
    (fun tr _ _ => tr = [.write 0 [7, 7], .enqueue 0 7, .enqueue 0 7, .wrote 0 2, .read 0 1 true, .dequeue 0 7,
      .deliver 0 64 7, .took 0 1 false true]) (by decide +kernel)
  obtain ⟨count, -, counted⟩ := pipe_is_queue run.of_restrict
  exact ⟨tr, s, th, run.of_restrict, of_decide_eq_true h, count, counted⟩

/-! ## Sleepers -/

/-- In every run in which no killed writer leaves unannounced bytes, a reader sleeps only while the
pipe is empty and open for writing, and a writer only while it is full and open for reading. -/
theorem no_missed_wakeup {valid : Fs.UMem → Nat → Nat → Prop}
    (run : ((sys n valid).restrict Calm).Reach (start data killed mem) (fun _ => .ret ()) tr s th)
    (free : s.lock = none) (p : Fin n) :
    (s.rest p = .asleep .nread → s.pipe.nread = s.pipe.nwrite ∧ s.pipe.writeopen = true) ∧
    (s.rest p = .asleep .nwrite → s.pipe.nwrite = (s.pipe.nread + PIPESIZE) % 2 ^ 32 ∧ s.pipe.readopen = true) := by
  obtain ⟨L, inv⟩ := reach_inv ⟨False, True⟩ nofun (fun _ _ _ _ calm => calm) run
  have idle : ∀ chan, s.rest p = .asleep chan → s.pipe.Idle chan := by
    intro chan asleep
    refine inv.awake trivial chan p ?_ (Or.inr asleep)
    rw [fineNow, ofHolder_free free]
    trivial
  exact ⟨idle .nread, idle .nwrite⟩

/-- Process 0 waits for data. -/
def waitForData : List (Cmd (Fin 3) (Move 3)) := .start (.read 0 64 1) :: List.replicate 5 (.step 0) ++ [.env (.slept 0)]

theorem no_missed_wakeup_waitForData : ∃ (tr : List (Ev 3)) (s : St 3) (th : Fin 3 → Code 3 Unit),
    ((sys 3 fun _ _ _ => True).restrict Calm).Reach (start (fun _ => 0) (fun _ => false) fun _ => onePage)
      (fun _ => .ret ()) tr s th ∧
    s.lock = none ∧ s.rest 0 = .asleep .nread ∧ s.pipe.nread = s.pipe.nwrite ∧ s.pipe.writeopen = true := by
  obtain ⟨tr, s, th, run, h⟩ := (engine (n := 3) fun _ _ _ => True).exists_reach (fun i _ s => !s.killed i) waitForData
    (start (fun _ => 0) (fun _ => false) fun _ => onePage) (fun _ => .ret ())
    (fun _ s _ => decide (s.lock = none) && decide (s.rest 0 = .asleep .nread)) (by decide +kernel)
  simp only [Bool.and_eq_true, decide_eq_true_eq] at h
  have calm : ((sys 3 fun _ _ _ => True).restrict Calm).Reach (start (fun _ => 0) (fun _ => false) fun _ => onePage)
      (fun _ => .ret ()) tr s th := by
    refine run.weaken fun i a s alive => ?_
    cases a with
    | killed =>
      intro killed
      simp [killed] at alive
    | _ => trivial
  exact ⟨tr, s, th, calm, h.1, h.2, (no_missed_wakeup calm h.1 0).1 h.2⟩

/-- Process 0 waits for data, process 1 enqueues the first of two bytes, process 2 kills process 1, and
process 1 returns. -/
def killedWriter : List (Cmd (Fin 3) (Move 3)) :=
  waitForData ++ .start (.write 1 0 2) :: List.replicate 6 (.step 1) ++ .start (.kill 2 1) :: .step 2 :: List.replicate 5 (.step 1)

/-- Nobody holds the lock and a byte is in the pipe, and the reader sleeps. -/
theorem killed_writer_leaves_reader_asleep : ∃ (tr : List (Ev 3)) (s : St 3) (th : Fin 3 → Code 3 Unit),
    (sys 3 fun _ _ _ => True).Reach (start (fun _ => 0) (fun _ => false) fun _ => onePage) (fun _ => .ret ()) tr s th ∧
    s.lock = none ∧ s.rest 0 = .asleep .nread ∧ s.pc 1 = .user ∧ s.pipe.nread = 0 ∧ s.pipe.nwrite = 1 := by
  obtain ⟨tr, s, th, run, h⟩ := (engine (n := 3) fun _ _ _ => True).exists_reach (fun _ _ _ => true) killedWriter
    (start (fun _ => 0) (fun _ => false) fun _ => onePage) (fun _ => .ret ())
    (fun _ s _ => decide (s.lock = none) && decide (s.rest 0 = .asleep .nread) && decide (s.pc 1 = .user) &&
      decide (s.pipe.nread = 0) && decide (s.pipe.nwrite = 1)) (by decide +kernel)
  simp only [Bool.and_eq_true, decide_eq_true_eq] at h
  obtain ⟨⟨⟨⟨free, asleep⟩, user⟩, nread⟩, nwrite⟩ := h
  exact ⟨tr, s, th, run.of_restrict, free, asleep, user, nread, nwrite⟩

/-! ## Reads into unmapped memory -/

/-- Process 0 writes a byte and reads it to an address that is not mapped. -/
def readUnmapped : List (Cmd (Fin 1) (Move 1)) :=
  let me : Fin 1 := ⟨0, Nat.one_pos⟩
  .start (.write me 0 1) :: List.replicate 9 (.step me) ++ .start (.read me 4096 1) :: List.replicate 9 (.step me)

end Xv6.Pipes
