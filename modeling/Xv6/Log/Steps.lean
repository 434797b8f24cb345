import Mathlib
import Xv6.Log.Invariant

/-!
# Every step keeps the invariant of the log

First the steps that only move buffer locks, then what a client does inside an operation,
then what the owner of the log area does, and the environment: a recycled buffer and a
power failure.
-/

namespace Xv6.Log

open Interleave

variable {ι T : Type} [Fintype ι] [DecidableEq ι] {start size : Nat} {H : Hist} {s : St ι T}
variable {held : ι → Handle → Option (Nat × Bool)} {inOp : ι → Bool} {own : ι → Option Own}
variable {live : ι → Bool} {i : ι} {h : Handle} {b : Nat} {g : Own}

omit [DecidableEq ι] in
theorem Inv.of_quiet (hno : ∀ j, own j = none) (geom : s.log.start = start ∧ s.log.size = size)
    (agrees : Agrees s.hold held)
    (uniq : ∀ h h' i j b, s.hold h = some (i, b) → s.hold h' = some (j, b) → h = h')
    (count : s.log.outstanding = ∑ i, if inOp i then 1 else 0)
    (marks : ∀ i h b, held i h = some (b, true) → inOp i = true ∧ Home start size b)
    (up : s.up = true) (Q : QuietInv start size H s.disk s.cache s.pin s.log held) :
    Inv start size H s held inOp own live where
  geom := geom
  agrees := agrees
  uniq := uniq
  count := count
  marks := fun j h c hc _ => marks j h c hc
  marksOwn := fun j _ _ g _ hg => by simp [hno j] at hg
  holds := fun j g _ _ hg => by simp [hno j] at hg
  one := fun j _ g _ hg => by simp [hno j] at hg
  noOp := fun j g hg => by simp [hno j] at hg
  commits := fun j g hg => by simp [hno j] at hg
  alone := fun j g hg => by simp [hno j] at hg
  ups := fun j g hg => by simp [hno j] at hg
  owned := fun j g hg => by simp [hno j] at hg
  quiet := fun _ => ⟨up, Q⟩

/-! ## Buffer locks -/

/-- Taking or releasing a buffer that is not modified. -/
theorem Inv.relock (I : Inv start size H s held inOp own live)
    {hold : Handle → Option (ι × Nat)} {x : Option (Nat × Bool)}
    (old : ∀ c, held i h ≠ some (c, true)) (new : ∀ c, x ≠ some (c, true))
    (agrees : Agrees hold (Function.update held i (Function.update (held i) h x)))
    (uniq : ∀ h h' i j b, hold h = some (i, b) → hold h' = some (j, b) → h = h') :
    Inv start size H { s with hold := hold }
      (Function.update held i (Function.update (held i) h x)) inOp own live where
  geom := I.geom
  agrees := agrees
  uniq := uniq
  count := I.count
  marks := fun j h' c hc => I.marks j h' c (clean_of_set new hc)
  marksOwn := fun j h' c g hc => I.marksOwn j h' c g (clean_of_set new hc)
  holds := fun j g c d hg hd => by
    obtain ⟨h', hh'⟩ := I.holds j g c d hg hd
    exact ⟨h', set_of_clean old hh'⟩
  one := I.one
  noOp := I.noOp
  commits := I.commits
  alone := I.alone
  ups := I.ups
  owned := I.owned
  quiet := fun hq => by
    obtain ⟨up, Q⟩ := I.quiet hq
    refine ⟨up, Q.idle, Q.fits, Q.logged, Q.head, Q.lcache, Q.pin, Q.disk, ?_⟩
    intro c hc hd
    exact Q.cache c hc (by rwa [marked_set_clean old new] at hd)

theorem Inv.bread (I : Inv start size H s held inOp own live) (free : s.hold h = none)
    (unlocked : ∀ h' j, s.hold h' ≠ some (j, b)) :
    Inv start size H { s with hold := Function.update s.hold h (some (i, b)) }
      (Function.update held i (Function.update (held i) h (some (b, false)))) inOp own live := by
  have hn := I.agrees.none_of_none free i
  exact I.relock (by simp [hn]) (by simp) (I.agrees.acquire free i b false)
    (uniq_acquire I.uniq unlocked)

theorem Inv.brelse (I : Inv start size H s held inOp own live) (hb : held i h = some (b, false)) :
    Inv start size H { s with hold := Function.update s.hold h none }
      (Function.update held i (Function.update (held i) h none)) inOp own live := by
  exact I.relock (by simp [hb]) (by simp) (I.agrees.release hb) (uniq_release I.uniq)

/-! ## Clients in an operation -/

/-- A client modifies a buffer it has locked. -/
theorem Inv.modify (I : Inv start size H s held inOp own live) {m : Bool} (d : Block)
    (hb : held i h = some (b, m)) (hop : inOp i = true) (home : Home start size b) :
    Inv start size H { s with cache := Function.update s.cache b d }
      (Function.update held i (Function.update (held i) h (some (b, true)))) inOp own live := by
  have hno := I.no_owner hop
  have marked : ∀ j h' c, Function.update held i (Function.update (held i) h (some (b, true))) j h'
      = some (c, true) → held j h' = some (c, true) ∨ (j = i ∧ c = b) := by
    intro j h' c hc
    by_cases hj : j = i
    · subst hj
      by_cases hh : h' = h
      · subst hh
        have : b = c := by simpa using hc
        exact Or.inr ⟨rfl, this.symm⟩
      · exact Or.inl (by simpa [hh] using hc)
    · exact Or.inl (by simpa [hj] using hc)
  obtain ⟨up, Q⟩ := I.quiet hno
  refine Inv.of_quiet hno I.geom (I.agrees.mark hb true) I.uniq I.count ?_ up
    ⟨Q.idle, Q.fits, Q.logged, Q.head, ?_, Q.pin, Q.disk, ?_⟩
  · intro j h' c hc
    rcases marked j h' c hc with hold | ⟨rfl, rfl⟩
    · exact I.marks j h' c hold (hno j)
    · exact ⟨hop, home⟩
  · intro c hc
    have hcb : c ≠ b := by
      rintro rfl
      exact home.1 hc
    simpa [hcb] using Q.lcache c hc
  · intro c hc hd
    have hcb : c ≠ b := by
      rintro rfl
      exact hd ⟨i, h, by simp⟩
    have hold : ¬ Marked true held c := fun hc => hd (marked_set_other hb hcb hc)
    simpa [hcb] using Q.cache c hc hold

theorem Inv.logWrite (I : Inv start size H s held inOp own live) {m fresh : Bool} {log : LogVar}
    (hb : held i h = some (b, m)) (hop : inOp i = true) (home : Home start size b)
    (hw : s.log.logWrite b = .ok (log, fresh)) :
    Inv start size (H.step start (.logged b (s.cache b)))
      { s with log := log, pin := if fresh then Function.update s.pin b (s.pin b + 1) else s.pin }
      (Function.update held i (Function.update (held i) h (some (b, false)))) inOp own live := by
  have hno := I.no_owner hop
  obtain ⟨up, Q⟩ := I.quiet hno
  obtain ⟨hshort, hroom, hcase⟩ := LogVar.logWrite_ok hw
  rw [I.geom.2] at hroom
  -- the log after the step: same counters, and exactly one more block if it was new
  have hlog : log.start = start ∧ log.size = size ∧ log.outstanding = s.log.outstanding ∧
      log.committing = false ∧ (∀ c, c ∈ log.lh ↔ c ∈ s.log.lh ∨ c = b) := by
    rcases hcase with ⟨hmem, rfl, -⟩ | ⟨-, rfl, -⟩
    · refine ⟨I.geom.1, I.geom.2, rfl, Q.idle, fun c => ?_⟩
      exact ⟨Or.inl, fun hc => hc.elim id fun e => e ▸ hmem⟩
    · exact ⟨I.geom.1, I.geom.2, rfl, Q.idle, fun c => by simp⟩
  have hfits : Fits start size log.lh := by
    rcases hcase with ⟨-, rfl, -⟩ | ⟨hmem, rfl, -⟩
    · exact Q.fits
    · refine ⟨?_, ?_, ?_, Or.inl ?_⟩
      · refine List.nodup_append.mpr ⟨Q.fits.nodup, List.nodup_singleton b, ?_⟩
        rintro c hc c' hc' rfl
        rw [List.mem_singleton.mp hc'] at hc
        exact hmem hc
      · intro c hc
        rcases List.mem_append.mp hc with hc | hc
        · exact Q.fits.home c hc
        · rw [List.mem_singleton.mp hc]
          exact home
      · simp only [List.length_append, List.length_singleton]
        omega
      · simp only [List.length_append, List.length_singleton]
        omega
  have hpin : ∀ c, (if fresh then Function.update s.pin b (s.pin b + 1) else s.pin) c =
      if c ∈ log.lh then 1 else 0 := by
    intro c
    rcases hcase with ⟨-, rfl, rfl⟩ | ⟨hmem, rfl, rfl⟩
    · exact Q.pin c
    · by_cases hcb : c = b
      · subst hcb
        simp [Q.pin c, hmem]
      · simp [hcb, Q.pin c]
  refine Inv.of_quiet hno ⟨hlog.1, hlog.2.1⟩ (I.agrees.mark hb false) I.uniq
    (hlog.2.2.1.trans I.count) ?_ up
    ⟨hlog.2.2.2.1, hfits, ?_, Q.head, Q.lcache, hpin, Q.disk, ?_⟩
  · intro j h' c hc
    exact I.marks j h' c (clean_of_set (by simp) hc) (hno j)
  · intro c
    rw [hlog.2.2.2.2 c, Q.logged c]
    simp [Hist.step]
  · intro c hc hd
    simp only [Hist.step, overlay_snoc]
    by_cases hcb : c = b
    · subst hcb
      simp
    · rw [Function.update_of_ne hcb]
      exact Q.cache c hc fun hc => hd (marked_set_other hb hcb hc)

omit [DecidableEq ι] in
/-- Nobody owns the log area when a running client is admitted. -/
theorem Inv.quiet_of_admits (I : Inv start size H s held inOp own live) (hi : own i = none)
    (run : live i = true) (admits : s.log.admits = true) : ∀ j, own j = none := by
  intro j
  cases hj : own j with
  | none => rfl
  | some g =>
    have hc := I.commits j g hj
    have hidle : s.log.committing = false := by
      simp only [LogVar.admits, Bool.and_eq_true, Bool.not_eq_true'] at admits
      exact admits.1
    rw [hidle] at hc
    have hne : i ≠ j := by
      rintro rfl
      rw [hi] at hj
      cases hj
    have := I.alone j g hj (by simpa using hc.symm) i hne
    rw [run] at this
    cases this

theorem Inv.beginOp (I : Inv start size H s held inOp own live) (hi : own i = none)
    (hop : inOp i = false) (run : live i = true) (admits : s.log.admits = true) :
    Inv start size H { s with log := s.log.beginOp } held (Function.update inOp i true) own live := by
  have hno := I.quiet_of_admits hi run admits
  have hcount : s.log.outstanding + 1 = ∑ j, if Function.update inOp i true j then (1 : Int) else 0 := by
    rw [sum_update (fun x : Bool => if x then (1 : Int) else 0) inOp i true, ← I.count, hop]
    simp
  obtain ⟨up, Q⟩ := I.quiet hno
  refine Inv.of_quiet hno I.geom I.agrees I.uniq hcount ?_ up
    ⟨Q.idle, Q.fits, Q.logged, Q.head, Q.lcache, Q.pin, Q.disk, Q.cache⟩
  intro j h' c hc
  obtain ⟨h1, h2⟩ := I.marks j h' c hc (hno j)
  refine ⟨?_, h2⟩
  by_cases e : j = i
  · subst e
    simp
  · simpa [e] using h1

/-- The last `end_op` of a group hands the log area to its caller; the others only count
down. The panic of `end_op` is not reached. -/
theorem Inv.endOpDec (I : Inv start size H s held inOp own live) (hop : inOp i = true)
    (logged : ∀ h b, held i h ≠ some (b, true)) :
    (s.log.endOpDec.1 = .ok false ∧
      Inv start size H { s with log := s.log.endOpDec.2 } held (Function.update inOp i false) own
        live) ∨
    (s.log.endOpDec.1 = .ok true ∧ ∃ g : Own, g.recov = false ∧ g.phase = .logging ∧
      g.dirty = none ∧ Fits start size g.tx ∧
      Inv start size H { s with log := s.log.endOpDec.2 } held (Function.update inOp i false)
        (Function.update own i (some g)) live) := by
  have hno := I.no_owner hop
  obtain ⟨up, Q⟩ := I.quiet hno
  have hcount : s.log.outstanding - 1 =
      ∑ j, if Function.update inOp i false j then (1 : Int) else 0 := by
    rw [sum_update (fun x : Bool => if x then (1 : Int) else 0) inOp i false, ← I.count, hop]
    simp
  have marks : ∀ j h c, held j h = some (c, true) →
      Function.update inOp i false j = true ∧ Home start size c := by
    intro j h' c hc
    obtain ⟨h1, h2⟩ := I.marks j h' c hc (hno j)
    have e : j ≠ i := by
      rintro rfl
      exact logged h' c hc
    exact ⟨by simpa [e] using h1, h2⟩
  by_cases hz : s.log.outstanding - 1 = 0
  · right
    have heq : s.log.endOpDec = (.ok true, { s.log with
        outstanding := s.log.outstanding - 1, committing := true }) := by
      simp [LogVar.endOpDec, Q.idle, hz]
    -- nobody else is in an operation, so nothing is left modified
    have hnone : ∀ j, Function.update inOp i false j = false := by
      intro j
      rw [hz] at hcount
      have := (Finset.sum_eq_zero_iff_of_nonneg (fun j _ => by split <;> simp)).mp hcount.symm j
        (Finset.mem_univ j)
      simpa using this
    have hclean : ∀ c, ¬ Marked true held c := by
      rintro c ⟨j, h', hj⟩
      have := (marks j h' c hj).1
      rw [hnone j] at this
      cases this
    let g : Own := ⟨false, .logging, s.log.lh, overlay H.base H.txn, s.disk, none⟩
    have hown : ∀ j g', Function.update own i (some g) j = some g' → j = i ∧ g' = g := by
      intro j g' hg
      by_cases e : j = i
      · subst e
        exact ⟨rfl, by simpa using hg.symm⟩
      · simp [e, hno j] at hg
    rw [heq]
    refine ⟨rfl, g, rfl, rfl, rfl, Q.fits, ?_⟩
    refine ⟨I.geom, I.agrees, I.uniq, hcount, fun j h' c hc _ => marks j h' c hc, ?_, ?_, ?_, ?_, ?_,
      ?_, fun j g' hg => by rw [(hown j g' hg).2]; exact up, ?_, ?_⟩
    · intro j h' c g' hc hg
      exact absurd ⟨j, h', hc⟩ (hclean c)
    · intro j g' c d hg hd
      rw [(hown j g' hg).2] at hd
      cases hd
    · intro j k g₁ g₂ h1 h2
      rw [(hown j g₁ h1).1, (hown k g₂ h2).1]
    · exact fun _ _ _ => hnone
    · intro j g' hg
      rw [(hown j g' hg).2]
      rfl
    · intro j g' hg hr
      rw [(hown j g' hg).2] at hr
      cases hr
    · intro j g' hg
      rw [(hown j g' hg).2]
      refine ⟨fun _ _ => rfl, fun c hc _ => Q.lcache c hc, by simp [g], rfl, ?_, Q.fits, ?_⟩
      · simpa [Own.pinned, g] using Q.pin
      · exact ⟨rfl, Q.head, Q.logged, fun c hc => ⟨Q.disk c hc, rfl, Q.cache c hc (hclean c)⟩⟩
    · intro hq
      have := hq i
      simp at this
  · left
    have heq : s.log.endOpDec = (.ok false, { s.log with outstanding := s.log.outstanding - 1 }) := by
      simp [LogVar.endOpDec, Q.idle, hz]
    rw [heq]
    exact ⟨rfl, Inv.of_quiet hno I.geom I.agrees I.uniq hcount marks up
      ⟨Q.idle, Q.fits, Q.logged, Q.head, Q.lcache, Q.pin, Q.disk, Q.cache⟩⟩

/-! ## The owner of the log area -/

/-- A step of the owner: it may change the contents of disk and cache, the pins, `log.lh`
and its own marks. -/
theorem Inv.own_step (I : Inv start size H s held inOp own live) {g' : Own} {H' : Hist}
    {disk cache : Nat → Block} {pin : Nat → Nat} {lh : List Nat}
    {mine : Handle → Option (Nat × Bool)} (hg : own i = some g) (recov : g'.recov = g.recov)
    (agrees : Agrees s.hold (Function.update held i mine))
    (marksOwn : ∀ h b, mine h = some (b, true) → ∃ d, g'.dirty = some (b, d))
    (holds : ∀ b d, g'.dirty = some (b, d) → ∃ h, mine h = some (b, true))
    (O : OwnInv start size H' disk cache pin lh g') :
    Inv start size H' { s with disk := disk, cache := cache, pin := pin,
                               log := { s.log with lh := lh } }
      (Function.update held i mine) inOp (Function.update own i (some g')) live := by
  have hown : ∀ j g₁, Function.update own i (some g') j = some g₁ → j = i ∧ g₁ = g' := by
    intro j g₁ h₁
    by_cases e : j = i
    · subst e
      exact ⟨rfl, by simpa using h₁.symm⟩
    · rw [Function.update_of_ne e] at h₁
      exact absurd (I.one j i g₁ g h₁ hg) e
  refine ⟨I.geom, agrees, I.uniq, I.count, ?_, ?_, ?_, ?_, fun _ _ _ => I.noOp i g hg, ?_, ?_, ?_, ?_,
    ?_⟩
  · intro j h' c hc hj
    have e : j ≠ i := by
      rintro rfl
      simp at hj
    rw [Function.update_of_ne e] at hc hj
    exact I.marks j h' c hc hj
  · intro j h' c g₁ hc h₁
    obtain ⟨rfl, rfl⟩ := hown j g₁ h₁
    exact marksOwn h' c (by simpa using hc)
  · intro j g₁ c d h₁ hd
    obtain ⟨rfl, rfl⟩ := hown j g₁ h₁
    simpa using holds c d hd
  · intro j k g₁ g₂ h₁ h₂
    rw [(hown j g₁ h₁).1, (hown k g₂ h₂).1]
  · intro j g₁ h₁
    rw [(hown j g₁ h₁).2, recov]
    exact I.commits i g hg
  · intro j g₁ h₁ hr
    obtain ⟨rfl, rfl⟩ := hown j g₁ h₁
    exact I.alone j g hg (recov ▸ hr)
  · intro j g₁ h₁
    rw [(hown j g₁ h₁).2, recov]
    exact I.ups i g hg
  · intro j g₁ h₁
    rw [(hown j g₁ h₁).2]
    exact O
  · intro hq
    have := hq i
    simp at this

/-- A step of the owner that leaves the locks and its modified buffer alone. -/
theorem Inv.own_phase (I : Inv start size H s held inOp own live) {g' : Own} {H' : Hist}
    {disk cache : Nat → Block} {pin : Nat → Nat} {lh : List Nat} (hg : own i = some g)
    (O : OwnInv start size H' disk cache pin lh g') (recov : g'.recov = g.recov)
    (dirty : g'.dirty = g.dirty) :
    Inv start size H' { s with disk := disk, cache := cache, pin := pin,
                               log := { s.log with lh := lh } }
      held inOp (Function.update own i (some g')) live := by
  have := I.own_step hg recov (by simpa using I.agrees)
    (fun h c hc => dirty ▸ I.marksOwn i h c g hc hg)
    (fun c d hd => I.holds i g c d hg (dirty ▸ hd)) O
  simpa using this


theorem Own.mem_of_installing {t : Nat} (hb : g.tx[t]? = some b) (c : Nat) :
    c ∈ g.tx.drop t ↔ c = b ∨ c ∈ g.tx.drop (t + 1) := by
  obtain ⟨hlt, rfl⟩ := List.getElem?_eq_some_iff.mp hb
  rw [List.drop_eq_getElem_cons hlt, List.mem_cons]

/-- The owner modifies a buffer: a log block, or a home block with its final contents. -/
theorem Inv.ownSet (I : Inv start size H s held inOp own live) {m : Bool} {d : Block}
    (hg : own i = some g) (hb : held i h = some (b, m)) (clean : g.dirty = none)
    (may : InLog start size b ∨
      (∃ t u, g.phase = .installing t u) ∧ Home start size b ∧ d = g.target b) :
    Inv start size H { s with cache := Function.update s.cache b d }
      (Function.update held i (Function.update (held i) h (some (b, true)))) inOp
      (Function.update own i (some { g with dirty := some (b, d) })) live := by
  have O := I.owned i g hg
  have hheld : ∀ h' c, held i h' ≠ some (c, true) := by
    intro h' c hc
    obtain ⟨d', hd'⟩ := I.marksOwn i h' c g hc hg
    rw [clean] at hd'
    cases hd'
  refine I.own_step hg rfl (I.agrees.mark hb true) ?_ ?_
    ⟨O.ldisk, ?_, ?_, O.lh, O.pin, O.fits, ?_⟩
  · intro h' c hc
    by_cases e : h' = h
    · subst e
      have : b = c := by simpa using hc
      exact ⟨d, by rw [this]⟩
    · exact absurd (by simpa [e] using hc) (hheld h' c)
  · rintro c d' hd
    obtain ⟨rfl, -⟩ : b = c ∧ d = d' := by simpa using hd
    exact ⟨h, by simp⟩
  · intro c hc hd
    have hcb : c ≠ b := by
      rintro rfl
      exact hd d rfl
    rw [Function.update_of_ne hcb]
    exact O.lcache c hc (by simp [clean])
  · rintro c d' hd
    obtain ⟨rfl, rfl⟩ : b = c ∧ d = d' := by simpa using hd
    exact ⟨by simp, may⟩
  · -- a home block is only touched while installing, with the contents it is to have
    have hp := O.phase
    unfold PhaseInv at hp ⊢
    have other : ∀ c, ¬ InLog start size c → InLog start size b →
        Function.update s.cache b d c = s.cache c := by
      intro c hc hin
      refine Function.update_of_ne ?_ _ _
      rintro rfl
      exact hc hin
    rcases may with hin | ⟨⟨t, u, hinst⟩, hhome, rfl⟩
    · cases hphase : g.phase <;> rw [hphase] at hp <;> simp only at hp ⊢
      · exact ⟨hp.1, hp.2.1, hp.2.2.1, hp.2.2.2.1, fun c hc => by
          rw [other c hc hin]; exact hp.2.2.2.2 c hc⟩
      · exact ⟨hp.1, hp.2.1, hp.2.2.1, fun c hc => by
          rw [other c hc hin]; exact hp.2.2.2 c hc⟩
      · exact ⟨hp.1, hp.2.1, hp.2.2.1, hp.2.2.2.1, hp.2.2.2.2.1, fun c hc => by
          rw [other c hc hin]; exact hp.2.2.2.2.2 c hc⟩
      · exact ⟨hp.1, hp.2.1, hp.2.2.1, fun c hc => by
          rw [other c hc hin]; exact hp.2.2.2 c hc⟩
      · exact ⟨hp.1, hp.2.1, fun c hc => by
          rw [other c hc hin]; exact hp.2.2 c hc⟩
    · rw [hinst] at hp
      simp only [hinst]
      refine ⟨hp.1, hp.2.1, hp.2.2.1, hp.2.2.2.1, hp.2.2.2.2.1, fun c hc => ?_⟩
      obtain ⟨h1, h2, h3⟩ := hp.2.2.2.2.2 c hc
      refine ⟨h1, h2, ?_⟩
      by_cases hcb : c = b
      · subst hcb
        exact Or.inl (by simp)
      · rw [Function.update_of_ne hcb]
        exact h3

omit [Fintype ι] [DecidableEq ι] in
theorem OwnInv.ne_start (O : OwnInv start size H s.disk s.cache s.pin s.log.lh g)
    {t : Nat} (hb : g.tx[t]? = some b) : b ≠ start := by
  rintro rfl
  exact (O.fits.home b (List.mem_of_getElem? hb)).1 (Or.inl rfl)

omit [Fintype ι] [DecidableEq ι] in
/-- A block write of the owner, with the effect on the history: only the header write that
ends `write_log` commits. -/
theorem OwnInv.write (O : OwnInv start size H s.disk s.cache s.pin s.log.lh g) {d : Block}
    (hd : g.dirty = some (b, d)) (may : g.WriteOk start size b d) :
    OwnInv start size (H.step start (.written b d)) (Function.update s.disk b d) s.cache s.pin
      s.log.lh (g.write start b d) := by
  obtain ⟨hcache, hwhere⟩ := O.dirty b d hd
  have clean : ∀ c, InLog start size c → c ≠ b → s.cache c = g.ldisk c := by
    intro c hc hcb
    refine O.lcache c hc fun d' h' => hcb ?_
    rw [hd] at h'
    simp only [Option.some.injEq, Prod.mk.injEq] at h'
    exact h'.1.symm
  have hp := O.phase
  unfold PhaseInv at hp
  unfold Own.WriteOk at may
  unfold Own.write
  cases hphase : g.phase with
  | booting => rw [hphase] at may; exact may.elim
  | done => rw [hphase] at may; exact may.elim
  | logging =>
    rw [hphase] at hp may
    obtain ⟨hr, head, hlogged, hhome⟩ := hp
    have hin : InLog start size b := by
      by_cases hs : b = start
      · exact Or.inl hs
      · simpa only [if_neg hs] using may
    have ldisk' : ∀ c, InLog start size c →
        Function.update s.disk b d c = Function.update g.ldisk b d c := by
      intro c hc
      by_cases hcb : c = b
      · subst hcb
        simp
      · rw [Function.update_of_ne hcb, Function.update_of_ne hcb]
        exact O.ldisk c hc
    have lcache' : ∀ c, InLog start size c → s.cache c = Function.update g.ldisk b d c := by
      intro c hc
      by_cases hcb : c = b
      · subst hcb
        simpa using hcache
      · rw [Function.update_of_ne hcb]
        exact clean c hc hcb
    have hdisk : ∀ c, ¬ InLog start size c → Function.update s.disk b d c = s.disk c := by
      intro c hc
      refine Function.update_of_ne ?_ _ _
      rintro rfl
      exact hc hin
    have hlh : s.log.lh = g.tx := by rw [O.lh, Own.lh, hphase]
    have hpin : ∀ c, s.pin c = if c ∈ g.tx then 1 else 0 := by
      simpa [Own.pinned, hr, hphase] using O.pin
    by_cases hs : b = start
    · subst hs
      simp only [if_pos] at may ⊢
      obtain ⟨hne, hhead, hcopied⟩ := may
      have hpos : 0 < headN d := by
        rw [← length_getHead, hhead]
        exact List.length_pos_of_ne_nil hne
      refine ⟨ldisk', fun c hc _ => lcache' c hc, by simp, hlh, by simpa [Own.pinned, hr] using hpin,
        O.fits, ?_⟩
      simp only [PhaseInv, Hist.step, hpos, and_self, if_pos, Function.update_self]
      refine ⟨trivial, hhead, ?_, Nat.le_refl _, Nat.zero_le _, fun c hc => ?_⟩
      · intro j c hj hc
        rw [Function.update_of_ne (by omega)]
        exact hcopied j c hj hc
      · obtain ⟨h1, h2, h3⟩ := hhome c hc
        refine ⟨h2, fun hn => ?_, Or.inl h3⟩
        rw [hdisk c hc, h1, h2, overlay_of_not_mem]
        rw [← hlogged c]
        simpa using hn
    · have hstep : H.step start (.written b d) = H := by simp [Hist.step, hs]
      rw [hstep]
      simp only [hs, if_false]
      refine ⟨ldisk', fun c hc _ => lcache' c hc, by simp, hlh, by simpa [Own.pinned, hr] using hpin,
        O.fits, ?_⟩
      refine ⟨hr, ?_, hlogged, fun c hc => ?_⟩
      · simpa [Function.update_of_ne (Ne.symm hs)] using head
      · rw [hdisk c hc]
        exact hhome c hc
  | installing t u =>
    rw [hphase] at hp may
    obtain ⟨htxn, head, hcopied, hut, htl, hhome⟩ := hp
    have hbhome := O.fits.home b (List.mem_of_getElem? may)
    have hs : b ≠ start := O.ne_start may
    have hstep : H.step start (.written b d) = H := by simp [Hist.step, hs]
    have hdt : d = g.target b := by
      rcases hwhere with hin | ⟨-, -, hdt⟩
      · exact absurd hin hbhome.1
      · exact hdt
    have hlt : t < g.tx.length := (List.getElem?_eq_some_iff.mp may).1
    have hlog : ∀ c, InLog start size c → c ≠ b := by
      rintro c hc rfl
      exact hbhome.1 hc
    rw [hstep]
    refine ⟨?_, fun c hc _ => clean c hc (hlog c hc), by simp, ?_, ?_, O.fits, ?_⟩
    · intro c hc
      rw [Function.update_of_ne (hlog c hc)]
      exact O.ldisk c hc
    · rw [O.lh, Own.lh, Own.lh, hphase]
    · have := O.pin
      simpa only [Own.pinned, hphase] using this
    · refine ⟨htxn, head, hcopied, Nat.le_succ_of_le hut, hlt, fun c hc => ?_⟩
      obtain ⟨h1, h2, h3⟩ := hhome c hc
      by_cases hcb : c = b
      · subst hcb
        simp only [Function.update_self]
        exact ⟨h1, fun _ => hdt, Or.inl (hcache.trans hdt)⟩
      · rw [Function.update_of_ne hcb]
        refine ⟨h1, fun hn => h2 fun hm => ?_, h3⟩
        rcases (Own.mem_of_installing may c).mp hm with e | hm
        · exact hcb e
        · exact hn hm
  | erasing =>
    rw [hphase] at hp may
    obtain ⟨htxn, -, -, hhome⟩ := hp
    obtain ⟨rfl, hzero⟩ := may
    have hstep : H.step b (.written b d) = H := by simp [Hist.step, hzero]
    have hdisk : ∀ c, ¬ InLog b size c → Function.update s.disk b d c = s.disk c := by
      intro c hc
      refine Function.update_of_ne ?_ _ _
      rintro rfl
      exact hc (Or.inl rfl)
    rw [hstep]
    refine ⟨?_, ?_, by simp, ?_, ?_, O.fits, ?_⟩
    · intro c hc
      by_cases hcb : c = b
      · subst hcb
        simp
      · simp only [Function.update_of_ne hcb]
        exact O.ldisk c hc
    · intro c hc _
      by_cases hcb : c = b
      · subst hcb
        simpa using hcache
      · simp only [Function.update_of_ne hcb]
        exact clean c hc hcb
    · rw [O.lh, Own.lh, Own.lh, hphase]
    · have := O.pin
      simpa only [Own.pinned, hphase] using this
    · refine ⟨htxn, by simpa using hzero, fun c hc => ?_⟩
      rw [hdisk c hc]
      exact hhome c hc

theorem Inv.ownWrite (I : Inv start size H s held inOp own live) {d : Block} (hg : own i = some g)
    (hb : held i h = some (b, true)) (hd : g.dirty = some (b, d))
    (may : g.WriteOk start size b d) :
    Inv start size (H.step start (.written b (s.cache b)))
      { s with disk := Function.update s.disk b (s.cache b) }
      (Function.update held i (Function.update (held i) h (some (b, false)))) inOp
      (Function.update own i (some (g.write start b d))) live := by
  have O := I.owned i g hg
  have hcache := (O.dirty b d hd).1
  have hclean : (g.write start b d).dirty = none ∧ (g.write start b d).recov = g.recov := by
    unfold Own.WriteOk at may
    unfold Own.write
    cases hphase : g.phase <;> rw [hphase] at may <;> simp_all
  rw [hcache]
  refine I.own_step hg hclean.2 (I.agrees.mark hb false) ?_ (by simp [hclean.1])
    (O.write hd may)
  intro h' c hc
  -- the only modified buffer was the one just written
  have hc' : held i h' = some (c, true) := by
    by_cases e : h' = h
    · subst e
      simp at hc
    · simpa [e] using hc
  obtain ⟨d', hd'⟩ := I.marksOwn i h' c g hc' hg
  obtain ⟨rfl, -⟩ : b = c ∧ d = d' := by simpa [hd] using hd'
  have : h = h' := I.uniq h h' i i b (I.agrees.hold_eq hb) (I.agrees.hold_eq hc')
  subst this
  simp at hc

theorem Inv.bunpin (I : Inv start size H s held inOp own live) {t u : Nat} (hg : own i = some g)
    (hr : g.recov = false) (hphase : g.phase = .installing t u) (hu : u < t)
    (hb : g.tx[u]? = some b) :
    Inv start size H { s with pin := Function.update s.pin b (s.pin b - 1) } held inOp
      (Function.update own i (some { g with phase := .installing t (u + 1) })) live := by
  have O := I.owned i g hg
  have hp := O.phase
  simp only [PhaseInv, hphase] at hp
  have hpin : ∀ c, s.pin c = if c ∈ g.tx.drop u then 1 else 0 := by
    simpa [Own.pinned, hr, hphase] using O.pin
  have hnodup : b ∉ g.tx.drop (u + 1) := by
    obtain ⟨hlt, rfl⟩ := List.getElem?_eq_some_iff.mp hb
    have := O.fits.nodup.sublist (List.drop_sublist u g.tx)
    rw [List.drop_eq_getElem_cons hlt] at this
    exact (List.nodup_cons.mp this).1
  refine I.own_phase (g := g) hg ⟨O.ldisk, O.lcache, fun c d hd => ?_, ?_, fun c => ?_, O.fits,
    ⟨hp.1, hp.2.1, hp.2.2.1, hu, hp.2.2.2.2⟩⟩ rfl rfl
  · obtain ⟨h1, h2⟩ := O.dirty c d hd
    exact ⟨h1, h2.imp id fun h => ⟨⟨t, u + 1, rfl⟩, h.2⟩⟩
  · rw [O.lh, Own.lh, Own.lh, hphase]
  · simp only [Own.pinned, hr]
    by_cases hcb : c = b
    · subst hcb
      simp [hpin c, Own.mem_of_installing hb, hnodup]
    · simp [hcb, hpin c, Own.mem_of_installing hb]

theorem Inv.readHead (I : Inv start size H s held inOp own live) (hg : own i = some g)
    (hphase : g.phase = .booting) :
    Inv start size H { s with log := { s.log with lh := g.tx } } held inOp
      (Function.update own i (some { g with phase := .installing 0 0 })) live := by
  have O := I.owned i g hg
  have hp := O.phase
  simp only [PhaseInv, hphase] at hp
  obtain ⟨hr, htxn, head, hcopied, hhome⟩ := hp
  refine I.own_phase (g := g) hg ⟨O.ldisk, O.lcache, fun c d hd => ?_, rfl, ?_, O.fits,
    ⟨htxn, head, hcopied, Nat.le_refl _, Nat.zero_le _, fun c hc => ?_⟩⟩ rfl rfl
  · obtain ⟨h1, h2⟩ := O.dirty c d hd
    exact ⟨h1, h2.imp id fun h => ⟨⟨0, 0, rfl⟩, h.2⟩⟩
  · simpa [Own.pinned, hr] using O.pin
  · obtain ⟨h1, h2, h3⟩ := hhome c hc
    exact ⟨h1, by simpa using h3, Or.inr ⟨hr, h2⟩⟩

theorem Inv.forget (I : Inv start size H s held inOp own live) {u : Nat} (hg : own i = some g)
    (clean : g.dirty = none) (hphase : g.phase = .installing g.tx.length u)
    (hu : g.recov = true ∨ u = g.tx.length) :
    Inv start size H { s with log := { s.log with lh := [] } } held inOp
      (Function.update own i (some { g with phase := .erasing })) live := by
  have O := I.owned i g hg
  have hp := O.phase
  simp only [PhaseInv, hphase] at hp
  obtain ⟨htxn, head, hcopied, -, -, hhome⟩ := hp
  refine I.own_phase (g := g) hg ⟨O.ldisk, O.lcache, by simp [clean], rfl, fun c => ?_, O.fits,
    ⟨htxn, head, hcopied, fun c hc => ?_⟩⟩ rfl rfl
  · rw [O.pin c]
    rcases hu with hr | rfl
    · simp [Own.pinned, hr]
    · simp [Own.pinned, hphase]
  · obtain ⟨h1, h2, h3⟩ := hhome c hc
    have hd := h2 (by simp)
    exact ⟨h1, hd, h3.elim id fun h => h.2.trans hd⟩

/-- The owner gives the log area back: at the end of a commit, or of recovery. -/
theorem Inv.release (I : Inv start size H s held inOp own live) (hg : own i = some g)
    (clean : g.dirty = none) (hphase : g.phase = .done ∨ g.phase = .logging ∧ g.tx = [])
    {log : LogVar} (hlog : log = { s.log with committing := false }) {up : Bool} (hup : up = true) :
    Inv start size H { s with log := log, up := up } held inOp (Function.update own i none)
      live := by
  have O := I.owned i g hg
  have hno : ∀ j, Function.update own i none j = none := by
    intro j
    by_cases e : j = i
    · subst e
      simp
    · rw [Function.update_of_ne e]
      cases hj : own j with
      | none => rfl
      | some g' => exact absurd (I.one j i g' g hj hg) e
  have hop := I.noOp i g hg
  have hmarks : ∀ j h c, held j h ≠ some (c, true) := by
    intro j h' c hc
    cases hj : own j with
    | none =>
      have := (I.marks j h' c hc hj).1
      rw [hop j] at this
      cases this
    | some g' =>
      obtain rfl := I.one j i g' g hj hg
      rw [hg] at hj
      obtain ⟨d, hd⟩ := I.marksOwn j h' c g hc hg
      rw [clean] at hd
      cases hd
  have hstart : s.disk start = g.ldisk start := O.ldisk start (Or.inl rfl)
  have hlcache : ∀ c, InLog start size c → s.cache c = s.disk c := by
    intro c hc
    rw [O.lcache c hc (by simp [clean]), O.ldisk c hc]
  have key : g.lh = [] ∧ g.pinned = [] ∧ H.txn = [] ∧ headN (g.ldisk start) = 0 ∧
      ∀ c, ¬ InLog start size c → s.disk c = H.base c ∧ s.cache c = H.base c := by
    have hp := O.phase
    rcases hphase with hphase | ⟨hphase, htx⟩
    · simp only [PhaseInv, hphase] at hp
      refine ⟨by rw [Own.lh, hphase], by simp [Own.pinned, hphase], hp.1, hp.2.1, fun c hc => ?_⟩
      obtain ⟨h1, h2, h3⟩ := hp.2.2 c hc
      exact ⟨h2.trans h1, h3.trans h1⟩
    · simp only [PhaseInv, hphase] at hp
      have htxn : H.txn = [] := by
        cases hH : H.txn with
        | nil => rfl
        | cons w ws =>
          have := (hp.2.2.1 w.1).mpr (by simp [hH])
          simp [htx] at this
      refine ⟨by rw [Own.lh, hphase]; exact htx, by simp [Own.pinned, hphase, htx], htxn, hp.2.1,
        fun c hc => ?_⟩
      obtain ⟨h1, h2, h3⟩ := hp.2.2.2 c hc
      rw [htxn] at h2
      exact ⟨h1, h3.trans h2⟩
  obtain ⟨hlh, hpinned, htxn, head, hhome⟩ := key
  subst hlog hup
  refine Inv.of_quiet hno I.geom I.agrees I.uniq I.count (fun j h' c hc => absurd hc (hmarks j h' c))
    rfl ⟨rfl, ?_, ?_, by rw [hstart]; exact head, hlcache, ?_, fun c hc => (hhome c hc).1, ?_⟩
  · simp only [O.lh, hlh]
    exact Fits.nil
  · simp [O.lh, hlh, htxn]
  · intro c
    rw [O.pin c, hpinned]
    simp [O.lh, hlh]
  · intro c hc _
    rw [htxn]
    exact (hhome c hc).2

/-! ## The environment -/

omit [Fintype ι] [DecidableEq ι] in
/-- A recycled block reads as the disk has it, all others as before. -/
theorem recycled {P : Nat → Block → Prop} {disk cache : Nat → Block} {b : Nat}
    (new : P b (disk b)) (old : ∀ c, c ≠ b → P c (cache c)) (c : Nat) :
    P c (Function.update cache b (disk b) c) :=
  (Function.forall_update_iff cache P).mpr ⟨new, old⟩ c

omit [Fintype ι] [DecidableEq ι] in
theorem PhaseInv.recycle {disk cache : Nat → Block} (hp : PhaseInv start size H disk cache g)
    (hb : b ∉ g.pinned) :
    PhaseInv start size H disk (Function.update cache b (disk b)) g := by
  -- a home block that is not pinned has on the disk what the cache should hold
  unfold PhaseInv at hp ⊢
  cases hphase : g.phase with
  | booting =>
    rw [hphase] at hp
    obtain ⟨hr, htxn, head, hcopied, hhome⟩ := hp
    refine ⟨hr, htxn, head, hcopied, fun c hc => ⟨(hhome c hc).1, ?_, (hhome c hc).2.2⟩⟩
    exact recycled (P := fun c d => ¬ InLog start size c → d = disk c) (fun _ => rfl)
      (fun c _ hc => (hhome c hc).2.1) c hc
  | logging =>
    rw [hphase] at hp
    obtain ⟨hr, head, htx, hhome⟩ := hp
    refine ⟨hr, head, htx, fun c hc => ⟨(hhome c hc).1, (hhome c hc).2.1, ?_⟩⟩
    refine recycled (P := fun c d => ¬ InLog start size c → d = g.target c) (fun hc => ?_)
      (fun c _ hc => (hhome c hc).2.2) c hc
    rw [(hhome b hc).1, (hhome b hc).2.1, overlay_of_not_mem]
    rw [← htx b]
    simpa [Own.pinned, hphase, hr] using hb
  | installing t u =>
    rw [hphase] at hp
    obtain ⟨htxn, head, hcopied, hut, ht, hhome⟩ := hp
    refine ⟨htxn, head, hcopied, hut, ht, fun c hc => ⟨(hhome c hc).1, (hhome c hc).2.1, ?_⟩⟩
    refine recycled (P := fun c d => ¬ InLog start size c →
      d = g.target c ∨ g.recov = true ∧ d = disk c) (fun hc => ?_)
      (fun c _ hc => (hhome c hc).2.2) c hc
    cases hr : g.recov with
    | true => exact Or.inr ⟨rfl, rfl⟩
    | false =>
      simp only [Own.pinned, hphase, hr] at hb
      exact Or.inl ((hhome b hc).2.1 fun hm => hb ((List.drop_sublist_drop_left g.tx hut).subset hm))
  | erasing =>
    rw [hphase] at hp
    obtain ⟨htxn, head, hcopied, hhome⟩ := hp
    refine ⟨htxn, head, hcopied, fun c hc => ⟨(hhome c hc).1, (hhome c hc).2.1, ?_⟩⟩
    exact recycled (P := fun c d => ¬ InLog start size c → d = g.target c)
      (fun hc => (hhome b hc).2.1) (fun c _ hc => (hhome c hc).2.2) c hc
  | done =>
    rw [hphase] at hp
    obtain ⟨htxn, head, hhome⟩ := hp
    refine ⟨htxn, head, fun c hc => ⟨(hhome c hc).1, (hhome c hc).2.1, ?_⟩⟩
    exact recycled (P := fun c d => ¬ InLog start size c → d = g.target c)
      (fun hc => (hhome b hc).2.1) (fun c _ hc => (hhome c hc).2.2) c hc

omit [DecidableEq ι] in
theorem Inv.recycle (I : Inv start size H s held inOp own live)
    (free : ∀ h j, s.hold h ≠ some (j, b)) (unpinned : s.pin b = 0) :
    Inv start size H { s with cache := Function.update s.cache b (s.disk b) } held inOp own
      live := by
  refine ⟨I.geom, I.agrees, I.uniq, I.count, I.marks, I.marksOwn, I.holds, I.one, I.noOp, I.commits,
    I.alone, I.ups, fun j g hg => ?_, fun hq => ?_⟩
  · have O := I.owned j g hg
    have hb : b ∉ g.pinned := by
      intro h
      have := O.pin b
      simp [unpinned, h] at this
    refine ⟨O.ldisk, ?_, fun c d hd => ?_, O.lh, O.pin, O.fits, O.phase.recycle hb⟩
    · exact recycled (P := fun c d => InLog start size c → (∀ d, g.dirty ≠ some (c, d)) →
        d = g.ldisk c) (fun hc _ => O.ldisk b hc) (fun c _ => O.lcache c)
    · have hcb : c ≠ b := by
        rintro rfl
        obtain ⟨h', hh'⟩ := I.holds j g c d hg hd
        exact free h' j (I.agrees.hold_eq hh')
      simpa [hcb] using O.dirty c d hd
  · obtain ⟨up, Q⟩ := I.quiet hq
    refine ⟨up, Q.idle, Q.fits, Q.logged, Q.head, ?_, Q.pin, Q.disk, ?_⟩
    · exact recycled (P := fun c d => InLog start size c → d = s.disk c) (fun _ => rfl)
        (fun c _ => Q.lcache c)
    · refine recycled (P := fun c d => ¬ InLog start size c → ¬ Marked true held c →
        d = overlay H.base H.txn c) (fun hc _ => ?_) (fun c _ => Q.cache c)
      rw [Q.disk b hc, overlay_of_not_mem]
      rw [← Q.logged b]
      intro h
      have := Q.pin b
      simp [unpinned, h] at this

/-- The ghost states a power failure leaves: only the first process runs, and it owns the
log area. -/
def bootOwn (start : Nat) (disk target : Nat → Block) : Own where
  recov := true
  phase := .booting
  tx := getHead (disk start)
  target := target
  ldisk := disk
  dirty := none

theorem Inv.reboot {start size : Nat} {disk base : Nat → Block}
    (R : Recoverable start size disk base) (first : ι) (t : T) :
    Inv start size ⟨base, []⟩ (reboot start size disk t) (fun _ _ => none) (fun _ => false)
      (fun j => if j = first then some (bootOwn start disk base) else none)
      (fun j => decide (j = first)) := by
  have hown : ∀ i g, (if i = first then some (bootOwn start disk base) else none) = some g →
      i = first ∧ g = bootOwn start disk base := by
    intro i g h
    split at h
    · exact ⟨by assumption, by simpa using h.symm⟩
    · cases h
  refine ⟨⟨rfl, rfl⟩, by intro i h b; simp [Log.reboot], by simp [Log.reboot],
    by simp [Log.reboot], by simp, by simp, ?_, ?_, by simp, ?_, ?_, ?_, ?_, ?_⟩
  · intro i g b d hg hd
    rw [(hown i g hg).2] at hd
    cases hd
  · intro i j g g' hg hg'
    rw [(hown i g hg).1, (hown j g' hg').1]
  · intro i g hg
    rw [(hown i g hg).2]
    rfl
  · intro i g hg _ j hj
    rw [(hown i g hg).1] at hj
    simpa using hj
  · intro i g hg
    rw [(hown i g hg).2]
    rfl
  · intro i g hg
    rw [(hown i g hg).2]
    exact ⟨fun b _ => rfl, fun b _ _ => rfl, fun b d hd => (by cases hd), rfl, fun b => rfl, R.fits,
      rfl, rfl, rfl, R.copied, fun b hb => ⟨rfl, rfl, R.home b hb⟩⟩
  · intro hq
    have := hq first
    simp at this

end Xv6.Log
