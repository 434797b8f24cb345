import Xv6.Pipes.Invariant

/-!
# Every run keeps the invariant
-/

namespace Xv6.Pipes

open Interleave

variable {n : Nat} {m : Mode} {tr : List (Ev n)} {s : St n} {L : Fin n → Gh n} {i : Fin n}
variable {valid : Fs.UMem → Nat → Nat → Prop} {cond : Fin n → Act n → St n → Prop}

/-- What a process starts is verified from what it knows. -/
theorem Knows.calls_wp {l : Gh n} (knows : Knows s i l) (rests : l.Rests m)
    (covers : m.mapped → ∀ mem addr len, valid mem addr len → mem.Covers addr len) {p : Code n Unit}
    (starts : calls valid i s p) : (rules m).wp p l fun _ g => g.Rests m := by
  obtain rfl := knows.me
  rw [calls, ← knows.place] at starts
  rw [Gh.Rests] at rests
  cases place : l.place with
  | user =>
    rw [place] at starts rests
    rcases starts with ⟨addr, n', ok, rfl | rfl⟩ | ⟨writable, rfl⟩ | ⟨q, rfl⟩
    · exact pipewrite_wp rests
    · rw [← knows.mem] at ok
      exact piperead_wp rests fun all => covers all _ _ _ ok
    · exact pipeclose_wp rests place writable
    · refine Rules.wp_last (G := rules m) trivial fun _ _ => ?_
      show l.Rests m
      rw [Gh.Rests, place]
      exact rests
  | writing addr n' todo =>
    rw [place] at starts rests
    obtain rfl : p = writeFrom l.me addr n' todo := starts
    exact writeFrom_wp rests
  | reading addr n' =>
    rw [place] at starts rests
    obtain rfl : p = readWait l.me addr n' := starts
    obtain ⟨mapped, waiting⟩ := rests
    exact readWait_wp waiting

/-- A process marks itself `SLEEPING`. -/
theorem Inv.slept (h : Inv m tr s L) {chan : Chan} (falling : s.rest i = .falling chan) :
    Inv m tr { s with rest := Function.update s.rest i (.asleep chan) } L where
  knows j := { h.knows j with }
  counts := h.counts
  order := h.order
  hand := h.hand
  called := h.called
  orderly := h.orderly
  reads := h.reads
  awake strict chan' p fine dozes := by
    refine h.awake strict chan' p fine ?_
    by_cases e : p = i
    · subst e
      rw [falling]
      simpa [Rest.Dozes] using dozes
    · simpa [e] using dozes

def Gh.setMem (l : Gh n) (mem : Fs.UMem) : Gh n := { l with mem := mem }

/-- A process changes its memory. -/
theorem Inv.user (h : Inv m tr s L) (mem : Fs.UMem) :
    Inv m tr { s with mem := Function.update s.mem i mem } (Function.update L i ((L i).setMem mem)) where
  knows j := by
    by_cases e : j = i
    · subst e
      rw [Function.update_self]
      exact { h.knows j with mem := by simp [Gh.setMem] }
    · rw [Function.update_of_ne e]
      exact { h.knows j with mem := (h.knows j).mem.trans (Function.update_of_ne e _ _).symm }
  counts := h.counts
  order := h.order
  hand all := by
    have keep : inHand { s with mem := Function.update s.mem i mem } (Function.update L i ((L i).setMem mem)) = inHand s L :=
      ofHolder_frame rfl rfl
    rw [keep]
    exact h.hand all
  called j c call := by
    by_cases e : j = i
    · subst e
      simp only [Function.update_self] at call ⊢
      exact h.called j c call
    · simp only [Function.update_of_ne e] at call ⊢
      exact h.called j c call
  orderly := h.orderly
  reads := h.reads
  awake strict chan p fine dozes := by
    have keep : fineNow { s with mem := Function.update s.mem i mem } (Function.update L i ((L i).setMem mem)) chan =
      fineNow s L chan := ofHolder_frame rfl rfl
    rw [keep] at fine
    exact h.awake strict chan p fine dozes

/-- The logic of runs whose actions meet `cond`. -/
def logic (m : Mode) (covers : m.mapped → ∀ mem addr len, valid mem addr len → mem.Covers addr len)
    (calm : m.strict → ∀ i a s, cond i a s → Calm i a s) : Logic ((sys n valid).restrict cond) (Gh n) where
  inv := Inv m
  pre := (rules m).pre
  post := (rules m).post
  fin := Gh.Rests m
  run_sound h ok step := ⟨_, ⟨h.tells ok step.2, rfl⟩, h.step ok step.2 fun strict => calm strict _ _ _ step.1⟩
  call_sound {tr s L i p} h rests starts := by
    refine ⟨L i, (h.knows i).calls_wp rests covers starts, ?_⟩
    rwa [Function.update_eq_self]
  env_sound {tr s L th o s' th'} h verified moves := by
    cases moves with
    | slept falling =>
      rw [List.append_nil]
      exact ⟨L, h.slept falling, verified⟩
    | @user i mem idle place =>
      rw [List.append_nil]
      refine ⟨_, h.user (i := i) mem, fun j => ?_⟩
      by_cases e : j = i
      · subst e
        have rests := verified j
        rw [idle] at rests
        rw [idle, Function.update_self]
        have user := (h.knows j).place.trans place
        have free : (L j).Rests m := rests
        rw [Gh.Rests, user] at free
        show ((L j).setMem mem).Rests m
        rw [Gh.Rests, show ((L j).setMem mem).place = _ from user]
        exact free
      · rw [Function.update_of_ne e]
        exact verified j

/-- What the processes know at the start. -/
def Gh.start (mem : Fin n → Fs.UMem) (i : Fin n) : Gh n where
  me := i
  mem := mem i
  place := .user
  held := false
  known := none
  fresh := false
  call := none
  sent := []
  got := []
  kept := []
  hand := none
  fine _ := Set.univ

theorem start_inv (data : Nat → UInt8) (killed : Fin n → Bool) (mem : Fin n → Fs.UMem) :
    Inv m [] (start data killed mem) (Gh.start mem) where
  knows i := ⟨rfl, rfl, rfl, iff_of_false nofun nofun, nofun, nofun⟩
  counts := ⟨show 0 < 2 ^ 32 by decide, show 0 < 2 ^ 32 by decide, show Fifo.count (2 ^ 32) 0 0 ≤ PIPESIZE by decide⟩
  order := by
    show [] ++ Fifo.items PIPESIZE (2 ^ 32) data 0 0 = []
    rw [Fifo.items, (Fifo.count_eq_zero_iff (by decide) (by decide)).mpr rfl]
    rfl
  hand _ := rfl
  called i c call := absurd call nofun
  orderly := .nil
  reads _ p n' mapped mem := absurd mem List.not_mem_nil
  awake _ chan p _ dozes := absurd dozes Rest.not_dozes_awake

theorem reach_inv (m : Mode) (covers : m.mapped → ∀ mem addr len, valid mem addr len → mem.Covers addr len)
    (calm : m.strict → ∀ i a s, cond i a s → Calm i a s) {data : Nat → UInt8} {killed : Fin n → Bool}
    {mem : Fin n → Fs.UMem} {th : Fin n → Code n Unit}
    (run : ((sys n valid).restrict cond).Reach (start data killed mem) (fun _ => .ret ()) tr s th) :
    ∃ L, Inv m tr s L := by
  have idle : (logic m covers calm).Verified (fun _ => .ret ()) (Gh.start mem) := fun _ => rfl
  obtain ⟨L, inv, -⟩ := (logic m covers calm).reach_inv (start_inv data killed mem) idle run
  exact ⟨L, inv⟩

/-- Runs of the system are runs under no condition. -/
theorem unrestricted {s₀ : St n} {th₀ th : Fin n → Code n Unit} (run : (sys n valid).Reach s₀ th₀ tr s th) :
    ((sys n valid).restrict fun _ _ _ => True).Reach s₀ th₀ tr s th :=
  Sys.Reach.mono (M := sys n valid) (N := (sys n valid).restrict fun _ _ _ => True)
    (fun _ _ _ _ _ step => ⟨trivial, step⟩) rfl rfl rfl run

end Xv6.Pipes
