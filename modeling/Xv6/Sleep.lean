import Mathlib

/-!
# Processes on their way to sleep (`sleep`, `wakeup` and `kill` of `kernel/proc.c`)

`sleep(chan, lk)` takes `p->lock`, releases `lk`, marks the process `SLEEPING` and lets the
scheduler release `p->lock`; a process that is woken becomes `RUNNABLE` and takes `lk` again when it
runs. `wakeup` and `kill` look at a process with its `p->lock` held, so they wait for one that is
between the release of `lk` and the switch to the scheduler.
-/

namespace Xv6

/-- A process runs or may run; it is in `sleep` and has released `lk`; it is `SLEEPING`. -/
inductive Rest (κ : Type) where
  | awake
  | falling (chan : κ)
  | asleep (chan : κ)
deriving DecidableEq

namespace Rest

variable {κ : Type} {r : Rest κ} {chan chan' : κ}

/-- `p->lock` is free. -/
def Open (r : Rest κ) : Prop := ∀ chan, r ≠ .falling chan

instance : Decidable r.Open :=
  match r with
  | .awake => .isTrue nofun
  | .asleep _ => .isTrue nofun
  | .falling chan => .isFalse fun h => h chan rfl

/-- Asleep on `chan`, or about to be. -/
def Dozes (r : Rest κ) (chan : κ) : Prop := r = .falling chan ∨ r = .asleep chan

/-- What `wakeup(chan)` makes of a process. -/
def wake [DecidableEq κ] (r : Rest κ) (chan : κ) : Rest κ := if r = .asleep chan then .awake else r

/-- What `kill` makes of a process. -/
def rouse : Rest κ → Rest κ
  | .asleep _ => .awake
  | r => r

theorem not_dozes_awake : ¬(awake : Rest κ).Dozes chan := by
  rintro (h | h) <;> cases h

theorem Dozes.of_rouse (h : r.rouse.Dozes chan) : r.Dozes chan := by
  cases r with
  | asleep c => exact absurd h not_dozes_awake
  | _ => exact h

variable [DecidableEq κ]

theorem Dozes.of_wake (h : (r.wake chan').Dozes chan) : r.Dozes chan := by
  rw [wake] at h
  split at h
  · exact absurd h not_dozes_awake
  · exact h

/-- `wakeup` leaves nobody asleep on the channel. -/
theorem not_dozes_wake (free : r.Open) : ¬(r.wake chan).Dozes chan := by
  intro h
  rw [wake] at h
  split at h
  · exact not_dozes_awake h
  · rename_i up
    rcases h with h | h
    · exact free chan h
    · exact up h

end Rest

end Xv6
