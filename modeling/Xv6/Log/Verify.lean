import Xv6.Log.Ghost

/-!
# The code of log.c respects the ghost rules

One rule per function of the block cache, then `write_log`, `write_head`, `install_trans`
and `read_head` by induction on their loops, and from these `end_op`, the boot code and
every disciplined client.
-/

namespace Xv6.Log

open Interleave

section Rules

variable {X : Type} {RX : X → Type} {α : Type} {start size : Nat}

/-- The code runs from ghost state `l` without breaking a rule and ends in `Q`. -/
abbrev Meets (start size : Nat) (p : Code RX α) (l : Loc) (Q : α → Loc → Prop) : Prop :=
  p.wp (pre start size) (actPost start size) l Q

/-- The ghost state of a running thread. -/
abbrev own (v : View Bool Bool) (g : Own) : Loc := ⟨true, v, some g⟩

variable {l : Loc} {v : View Bool Bool} {g : Own} {Q : α → Loc → Prop}

theorem meets_panic (live : l.live = true) (msg : String) :
    Meets start size (panic msg : Code RX α) l Q :=
  ⟨⟨live, trivial⟩, fun e => Empty.elim e⟩

theorem meets_bread {b : Nat} {k : Handle → Code RX α} (live : l.live = true)
    (next : ∀ h, l.view.held h = none → Meets start size (k h) (l.set h (some (b, false))) Q) :
    Meets start size (bread b >>= k) l Q := by
  refine ⟨⟨live, trivial⟩, ?_⟩
  intro r l' hp
  cases r with
  | none =>
    obtain rfl : l' = l := hp
    exact ⟨⟨live, trivial⟩, fun e => Empty.elim e⟩
  | some h =>
    obtain ⟨hn, rfl⟩ := hp
    exact next h hn

theorem meets_getLog {k : LogVar → Code RX α}
    (next : ∀ log, log.start = start → log.lh = g.lh → Meets start size (k log) (own v g) Q) :
    Meets start size (getLog >>= k) (own v g) Q := by
  refine ⟨⟨rfl, trivial⟩, ?_⟩
  rintro log l' ⟨rfl, hs, hg⟩
  exact next log hs (hg g rfl)

theorem meets_getData {h : Handle} {b : Nat} {m : Bool} {k : Block → Code RX α}
    (hb : v.held h = some (b, m)) (clean : g.dirty = none)
    (next : ∀ d, (InLog start size b → d = g.ldisk b) →
      (¬ InLog start size b → g.phase = .logging → d = g.target b) →
      Meets start size (k d) (own v g) Q) :
    Meets start size (getData h >>= k) (own v g) Q := by
  refine ⟨⟨rfl, b, m, hb⟩, ?_⟩
  rintro d l' ⟨rfl, hd⟩
  obtain ⟨h1, h2⟩ := hd g b m rfl hb clean
  exact next d h1 h2

theorem meets_setData {h : Handle} {b : Nat} {m : Bool} {d : Block} {k : Unit → Code RX α}
    (hb : v.held h = some (b, m)) (clean : g.dirty = none)
    (may : InLog start size b ∨
      (∃ t u, g.phase = .installing t u) ∧ Home start size b ∧ d = g.target b)
    (next : Meets start size (k ())
      (own (v.set h (some (b, true))) { g with dirty := some (b, d) }) Q) :
    Meets start size (setData h d >>= k) (own v g) Q := by
  refine ⟨⟨rfl, b, m, hb, clean, may⟩, ?_⟩
  rintro r l' ⟨b', m', hb', rfl⟩
  obtain ⟨rfl, rfl⟩ : b' = b ∧ m' = m := by simpa [hb] using hb'.symm
  exact next

theorem meets_bwrite {h : Handle} {b : Nat} {d : Block} {k : Unit → Code RX α}
    (hb : v.held h = some (b, true)) (hd : g.dirty = some (b, d))
    (may : g.WriteOk start size b d)
    (next : Meets start size (k ()) (own (v.set h (some (b, false))) (g.write start b d)) Q) :
    Meets start size (bwrite h >>= k) (own v g) Q := by
  refine ⟨⟨rfl, g, b, d, rfl, hb, hd, may⟩, ?_⟩
  rintro r l' ⟨g', b', d', hg, hb', hd', rfl⟩
  obtain rfl : g = g' := Option.some.inj hg
  obtain rfl : b' = b := by simpa [hb] using hb'.symm
  obtain rfl : d' = d := by simpa [hd] using hd'.symm
  exact next

theorem meets_bunpin {h : Handle} {b t u : Nat} {m : Bool} {k : Unit → Code RX α}
    (hb : v.held h = some (b, m)) (hr : g.recov = false) (hp : g.phase = .installing t u)
    (hu : u < t) (ht : g.tx[u]? = some b)
    (next : Meets start size (k ()) (own v { g with phase := .installing t (u + 1) }) Q) :
    Meets start size (bunpin h >>= k) (own v g) Q := by
  refine ⟨⟨rfl, g, t, u, b, m, rfl, hr, hp, hu, hb, ht⟩, ?_⟩
  rintro r l' ⟨g', t', u', hg, hp', rfl⟩
  obtain rfl : g = g' := Option.some.inj hg
  obtain ⟨rfl, rfl⟩ : t = t' ∧ u = u' := by simpa [hp] using hp'
  exact next

theorem meets_brelse {h : Handle} {b : Nat} {k : Unit → Code RX α} (live : l.live = true)
    (hb : l.view.held h = some (b, false))
    (next : Meets start size (k ()) (l.set h none) Q) :
    Meets start size (brelse h >>= k) l Q := by
  refine ⟨⟨live, b, hb⟩, ?_⟩
  rintro r l' rfl
  exact next

theorem meets_seq {β : Type} {p : Code RX β} {k : β → Code RX α} {P : β → Loc → Prop}
    (first : Meets start size p l P)
    (second : ∀ x l', P x l' → Meets start size (k x) l' Q) :
    Meets start size (p >>= k) l Q := Prog.wp_seq first second

/-- A buffer that is free in the view with another one taken is a different buffer. -/
theorem View.ne_of_free {O M : Type} {v : View O M} {h₁ h₂ : Handle} {x : Nat × M}
    (h : (v.set h₁ (some x)).held h₂ = none) : h₁ ≠ h₂ ∧ v.held h₂ = none := by
  have hne : h₁ ≠ h₂ := by
    rintro rfl
    simp at h
  exact ⟨hne, by simpa [Function.update_of_ne hne.symm] using h⟩

/-- Releasing the only two buffers that were taken gives the view from before. -/
theorem View.release_two {O M : Type} {v w : View O M} {h₁ h₂ : Handle} (h1 : v.held h₁ = none)
    (h2 : v.held h₂ = none) (op : w.inOp = v.inOp)
    (rest : ∀ h, h ≠ h₁ → h ≠ h₂ → w.held h = v.held h) :
    (w.set h₁ none).set h₂ none = v := by
  cases v with
  | mk inOp held =>
    cases w with
    | mk inOp' held' =>
      simp only [View.set, View.mk.injEq]
      refine ⟨op, ?_⟩
      funext h
      by_cases e2 : h = h₂
      · subst e2
        simpa using h2.symm
      · by_cases e1 : h = h₁
        · subst e1
          simpa [e2] using h1.symm
        · simpa [e1, e2] using rest h e1 e2

theorem View.release_one {O M : Type} {v w : View O M} {h₁ : Handle} (h1 : v.held h₁ = none)
    (op : w.inOp = v.inOp) (rest : ∀ h, h ≠ h₁ → w.held h = v.held h) : w.set h₁ none = v := by
  have := View.release_two h1 h1 op (fun h e _ => rest h e)
  simpa [View.set] using this

end Rules

theorem Own.phase_eta {g : Own} {p : Phase} (h : g.phase = p) : { g with phase := p } = g := by
  subst h
  rfl

section Loops

variable {X : Type} {RX : X → Type} {start size : Nat} {v : View Bool Bool} {g : Own}

theorem writeLogFrom_meets (hr : g.recov = false) (hp : g.phase = .logging)
    (clean : g.dirty = none) (fits : Fits start size g.tx) {k : Nat} (hk : k ≤ LOGSIZE)
    (copied : Copied start g.ldisk g.target g.tx (LOGSIZE - k)) :
    Meets start size (writeLogFrom k : Code RX Unit) (own v g) (fun _ l' =>
      ∃ ldisk, l' = own v { g with ldisk := ldisk } ∧
        Copied start ldisk g.target g.tx g.tx.length) := by
  induction k generalizing g with
  | zero =>
    refine ⟨g.ldisk, rfl, ?_⟩
    intro j b hj hb
    have := fits.short
    exact copied j b (by omega) hb
  | succ k ih =>
    obtain ⟨tail, htail⟩ : ∃ tail, LOGSIZE - (k + 1) = tail := ⟨_, rfl⟩
    rw [htail] at copied
    simp only [writeLogFrom, htail]
    refine meets_getLog fun log hs hlh => ?_
    have hlh : log.lh = g.tx := by rw [hlh, Own.lh, hp]
    subst hs
    simp only [hlh]
    cases hb : g.tx[tail]? with
    | none =>
      refine ⟨g.ldisk, rfl, ?_⟩
      intro j b hj hjb
      have := List.getElem?_eq_none_iff.mp hb
      exact copied j b (by omega) hjb
    | some b =>
      have hin := fits.inLog (List.getElem?_eq_some_iff.mp hb).1
      have hhome := fits.home b (List.mem_of_getElem? hb)
      refine meets_bread rfl fun h₁ hn₁ => ?_
      refine meets_bread rfl fun h₂ hn₂ => ?_
      obtain ⟨hne, hn₂⟩ := View.ne_of_free hn₂
      refine meets_getData (b := b) (m := false) (by simp) clean fun d _ hd => ?_
      obtain rfl := hd hhome.1 hp
      refine meets_setData (b := log.start + tail + 1) (m := false)
        (by simp [hne]) clean (Or.inl hin) ?_
      have hoff : log.start + tail + 1 ≠ log.start := by omega
      refine meets_bwrite (by simp) rfl ?_ ?_
      · simpa only [Own.WriteOk, hp, if_neg hoff] using hin
      refine meets_brelse (b := b) rfl (by simp [hne.symm]) ?_
      refine meets_brelse (b := log.start + tail + 1) rfl (by simp [hne]) ?_
      have hview := View.release_two (v := v) (w := (((v.set h₁ (some
        (log.start + tail + 1, false))).set h₂ (some (b, false))).set h₁
        (some (log.start + tail + 1, true))).set h₁ (some (log.start + tail + 1, false)))
        hn₂ hn₁ rfl (by intro h e2 e1; simp [e1, e2])
      have hown : Own.write log.start { g with dirty := some (log.start + tail + 1, g.target b) }
          (log.start + tail + 1) (g.target b) =
          { g with ldisk := Function.update g.ldisk (log.start + tail + 1) (g.target b) } := by
        simp [Own.write, hp, ← clean, hoff]
      simp only [Loc.set, hview, hown]
      refine ih (g := { g with ldisk := Function.update g.ldisk (log.start + tail + 1) (g.target b) })
        hr hp clean fits (by omega) ?_
      intro j c hj hc
      by_cases e : j = tail
      · subst e
        obtain rfl : b = c := by simpa [hb] using hc
        simp
      · change Function.update g.ldisk _ _ _ = g.target c
        rw [Function.update_of_ne (by omega)]
        exact copied j c (by omega) hc

theorem writeHead_meets (clean : g.dirty = none)
    (may : ∀ d, g.WriteOk start size start (putHead d g.lh)) :
    Meets start size (writeHead : Code RX Unit) (own v g) (fun _ l' =>
      ∃ d, l' = own v (g.write start start (putHead d g.lh))) := by
  rw [writeHead]
  refine meets_getLog fun log hs hlh => ?_
  subst hs
  refine meets_bread rfl fun h hn => ?_
  refine meets_getData (b := log.start) (m := false) (by simp) clean fun d _ _ => ?_
  refine meets_setData (b := log.start) (m := false) (by simp) clean (Or.inl (Or.inl rfl)) ?_
  rw [hlh]
  refine meets_bwrite (by simp) rfl (may d) ?_
  refine meets_brelse (k := Prog.ret) (b := log.start) rfl (by simp) ⟨d, ?_⟩
  have hview := View.release_one (v := v) (w := ((v.set h (some (log.start, false))).set h
    (some (log.start, true))).set h (some (log.start, false))) hn rfl (by intro h' e; simp [e])
  have hown : Own.write log.start { g with dirty := some (log.start, putHead d g.lh) } log.start
      (putHead d g.lh) = g.write log.start log.start (putHead d g.lh) := by
    have hm := may d
    unfold Own.WriteOk at hm
    cases hp : g.phase <;> simp_all [Own.write]
  simp only [Loc.set, hview, hown]

theorem installTransFrom_meets {r : Bool} (hr : g.recov = r) (clean : g.dirty = none) (fits : Fits start size g.tx)
    (copied : Copied start g.ldisk g.target g.tx g.tx.length) {k u : Nat} (hk : k ≤ LOGSIZE)
    (hp : g.phase = .installing (LOGSIZE - k) u) (hu : g.recov = true ∨ u = LOGSIZE - k)
    (ht : LOGSIZE - k ≤ g.tx.length) :
    Meets start size (installTransFrom r k : Code RX Unit) (own v g) (fun _ l' =>
      ∃ u', (g.recov = true ∨ u' = g.tx.length) ∧
        l' = own v { g with phase := .installing g.tx.length u' }) := by
  induction k generalizing g u with
  | zero =>
    have hlen : LOGSIZE - 0 = g.tx.length := by
      have := fits.short
      omega
    rw [hlen] at hp hu
    exact ⟨u, hu, by rw [Own.phase_eta hp]⟩
  | succ k ih =>
    obtain ⟨tail, htail⟩ : ∃ tail, LOGSIZE - (k + 1) = tail := ⟨_, rfl⟩
    rw [htail] at hp hu ht
    simp only [installTransFrom, htail]
    refine meets_getLog fun log hs hlh => ?_
    have hlh : log.lh = g.tx := by rw [hlh, Own.lh, hp]
    subst hs
    simp only [hlh]
    cases hb : g.tx[tail]? with
    | none =>
      have hlen : tail = g.tx.length := by
        have := List.getElem?_eq_none_iff.mp hb
        omega
      rw [hlen] at hp hu
      exact ⟨u, hu, by rw [Own.phase_eta hp]⟩
    | some b =>
      have hlt := (List.getElem?_eq_some_iff.mp hb).1
      have hin := fits.inLog hlt
      have hhome := fits.home b (List.mem_of_getElem? hb)
      refine meets_bread rfl fun h₁ hn₁ => ?_
      refine meets_bread rfl fun h₂ hn₂ => ?_
      obtain ⟨hne, hn₂⟩ := View.ne_of_free hn₂
      refine meets_getData (b := log.start + tail + 1) (m := false) (by simp [hne]) clean
        fun d hd _ => ?_
      obtain rfl : d = g.target b := (hd hin).trans (copied tail b hlt hb)
      refine meets_setData (b := b) (m := false) (by simp) clean
        (Or.inr ⟨⟨_, _, hp⟩, hhome, rfl⟩) ?_
      refine meets_bwrite (by simp) rfl (by simpa only [Own.WriteOk, hp] using hb) ?_
      have hview := View.release_two (v := v) (w := (((v.set h₁ (some
        (log.start + tail + 1, false))).set h₂ (some (b, false))).set h₂
        (some (b, true))).set h₂ (some (b, false)))
        hn₁ hn₂ rfl (by intro h e1 e2; simp [e1, e2])
      have hown : Own.write log.start { g with dirty := some (b, g.target b) } b (g.target b) =
          { g with phase := .installing (tail + 1) u } := by
        simp [Own.write, hp, ← clean]
      have hnext : LOGSIZE - k = tail + 1 := by omega
      have next : ∀ u', (g.recov = true ∨ u' = tail + 1) →
          Meets log.start size (installTransFrom r k : Code RX Unit)
            (own v { g with phase := .installing (tail + 1) u' }) (fun _ l' =>
              ∃ u', (g.recov = true ∨ u' = g.tx.length) ∧
                l' = own v { g with phase := .installing g.tx.length u' }) := by
        intro u' hu'
        refine ih (g := { g with phase := .installing (tail + 1) u' }) (u := u') hr clean fits copied
          (by omega) (by rw [hnext]) (by rw [hnext]; exact hu') (by rw [hnext]; exact hlt)
      rw [hown]
      by_cases hrec : r = true
      · rw [if_pos hrec]
        refine meets_brelse (b := log.start + tail + 1) rfl (by simp [hne]) ?_
        refine meets_brelse (b := b) rfl (by simp [hne.symm]) ?_
        simp only [Loc.set, hview]
        exact next u (Or.inl (hr.trans hrec))
      · have hu : u = tail := hu.resolve_left (by rwa [hr])
        rw [if_neg hrec]
        refine meets_bunpin (b := b) (m := false) (by simp) (by simpa [hr] using hrec) rfl (by omega)
          (by subst hu; exact hb) ?_
        refine meets_brelse (b := log.start + tail + 1) rfl (by simp [hne]) ?_
        refine meets_brelse (b := b) rfl (by simp [hne.symm]) ?_
        simp only [Loc.set, hview]
        exact next (u + 1) (Or.inr (by omega))

theorem readHead_meets (clean : g.dirty = none) (hp : g.phase = .booting)
    (head : getHead (g.ldisk start) = g.tx) :
    Meets start size (readHead : Code RX Unit) (own v g) (fun _ l' =>
      l' = own v { g with phase := .installing 0 0 }) := by
  rw [readHead]
  refine meets_getLog fun log hs _ => ?_
  subst hs
  refine meets_bread rfl fun h hn => ?_
  refine meets_getData (b := log.start) (m := false) (by simp) clean fun d hd _ => ?_
  obtain rfl := hd (Or.inl rfl)
  refine ⟨⟨rfl, g, rfl, clean, Or.inl ⟨hp, head⟩⟩, ?_⟩
  rintro r l' ⟨g', hg, h'⟩
  obtain rfl : g = g' := Option.some.inj hg
  rcases h' with ⟨-, rfl⟩ | ⟨t, u, ht, -⟩
  · refine meets_brelse (k := Prog.ret) (b := log.start) rfl (by simp) ?_
    have hview := View.release_one (v := v) (w := v.set h (some (log.start, false))) hn rfl
      (by intro h' e; simp [e])
    simp only [Prog.wp_ret, Loc.set, hview]
  · rw [hp] at ht
    cases ht

/-- The last two steps of `commit` and of recovery: forget the list, erase the header. -/
theorem erase_meets (clean : g.dirty = none) {u : Nat} (hp : g.phase = .installing g.tx.length u)
    (hu : g.recov = true ∨ u = g.tx.length) :
    Meets start size (setLh [] >>= fun _ => writeHead : Code RX Unit) (own v g) (fun _ l' =>
      ∃ g', l' = own v g' ∧ g'.recov = g.recov ∧ g'.dirty = none ∧ g'.phase = .done) := by
  refine ⟨⟨rfl, g, rfl, clean, Or.inr ⟨u, hp, hu, rfl⟩⟩, ?_⟩
  rintro r l' ⟨g', hg, h'⟩
  obtain rfl : g = g' := Option.some.inj hg
  rcases h' with ⟨hb, -⟩ | ⟨t, u', -, rfl⟩
  · rw [hp] at hb
    cases hb
  · refine Prog.wp_mono (writeHead_meets (g := { g with phase := .erasing }) clean ?_) ?_
    · intro d
      exact ⟨rfl, headN_putHead (by simp [Own.lh])⟩
    · rintro x l' ⟨d, rfl⟩
      exact ⟨_, rfl, rfl, rfl, rfl⟩

theorem commit_meets (hr : g.recov = false) (hp : g.phase = .logging) (clean : g.dirty = none)
    (fits : Fits start size g.tx) :
    Meets start size (commit : Code RX Unit) (own v g) (fun _ l' =>
      ∃ g', l' = own v g' ∧ g'.recov = false ∧ g'.dirty = none ∧
        (g'.phase = .done ∨ g'.phase = .logging ∧ g'.tx = [])) := by
  rw [commit]
  refine meets_getLog fun log hs hlh => ?_
  have hlh : log.lh = g.tx := by rw [hlh, Own.lh, hp]
  rw [hlh]
  by_cases hpos : 0 < g.tx.length
  · rw [if_pos hpos]
    have hne : g.tx ≠ [] := List.ne_nil_of_length_pos hpos
    refine meets_seq (writeLogFrom_meets hr hp clean fits (Nat.le_refl _) ?_) ?_
    · intro j b hj
      omega
    rintro x l' ⟨ldisk, rfl, copied⟩
    have hgh : ∀ ldisk, Own.lh { g with ldisk := ldisk } = g.tx := by
      intro ldisk
      simp [Own.lh, hp]
    refine meets_seq (writeHead_meets clean ?_) ?_
    · intro d
      have := getHead_putHead (d := d) fits.short (fun b hb => (fits.home b hb).2)
      simpa only [Own.WriteOk, hp, if_pos, hgh] using ⟨hne, this, copied⟩
    rintro x l' ⟨d, rfl⟩
    have hw : Own.write start { g with ldisk := ldisk } start
        (putHead d (Own.lh { g with ldisk := ldisk })) =
        { g with ldisk := Function.update ldisk start (putHead d g.tx), dirty := none,
                 phase := .installing 0 0 } := by
      rw [hgh]
      simp [Own.write, hp]
    rw [hw]
    have hcopied : Copied start (Function.update ldisk start (putHead d g.tx)) g.target g.tx
        g.tx.length := by
      intro j b hj hb
      rw [Function.update_of_ne (by omega)]
      exact copied j b hj hb
    refine meets_seq (installTransFrom_meets (u := 0) (g := { g with
      ldisk := Function.update ldisk start (putHead d g.tx), dirty := none,
      phase := .installing 0 0 }) hr rfl fits hcopied (Nat.le_refl _) (by simp)
      (Or.inr (by simp)) (by simp)) ?_
    rintro x l' ⟨u, hu, rfl⟩
    refine Prog.wp_mono (erase_meets rfl (u := u) rfl hu) ?_
    rintro x l' ⟨g', rfl, h1, h2, h3⟩
    exact ⟨g', rfl, h1.trans hr, h2, Or.inl h3⟩
  · rw [if_neg hpos]
    exact ⟨g, rfl, hr, clean, Or.inr ⟨hp, List.eq_nil_of_length_eq_zero (by omega)⟩⟩

theorem endOp_meets (hop : v.inOp = true) (logged : ∀ h b, v.held h ≠ some (b, true)) :
    Meets start size (endOp : Code RX Unit) ⟨true, v, none⟩ (fun _ l' =>
      l' = ⟨true, { v with inOp := false }, none⟩) := by
  refine ⟨⟨rfl, rfl, hop, logged⟩, ?_⟩
  intro r l' hpost
  match r, hpost with
  | .ok false, hpost =>
    obtain rfl : l' = _ := hpost
    exact rfl
  | .ok true, ⟨g, hr, hp, clean, fits, h'⟩ =>
    subst h'
    change Meets start size (commit >>= fun _ => req .endOpDone) _ _
    refine meets_seq (commit_meets hr hp clean fits) ?_
    rintro x l' ⟨g', rfl, hr', clean', hp'⟩
    refine ⟨⟨rfl, g', rfl, hr', clean', hp'⟩, ?_⟩
    rintro r l' rfl
    rfl

theorem boot_meets (hr : g.recov = true) (hp : g.phase = .booting) (clean : g.dirty = none)
    (fits : Fits start size g.tx) (head : getHead (g.ldisk start) = g.tx)
    (copied : Copied start g.ldisk g.target g.tx g.tx.length) :
    Meets start size (boot : Code RX Unit) (own v g) (fun _ l' => l' = ⟨true, v, none⟩) := by
  rw [boot, recoverFromLog, Prog.bind_assoc]
  refine meets_seq (readHead_meets clean hp head) ?_
  rintro x l' rfl
  rw [Prog.bind_assoc]
  refine meets_seq (installTransFrom_meets (u := 0) (g := { g with phase := .installing 0 0 })
    hr clean fits copied (Nat.le_refl _) (by simp) (Or.inr (by simp)) (by simp)) ?_
  rintro x l' ⟨u, -, rfl⟩
  refine meets_seq (erase_meets clean (u := u) rfl (Or.inl hr)) ?_
  rintro x l' ⟨g', rfl, h1, h2, h3⟩
  refine ⟨⟨rfl, g', rfl, h1.trans hr, h2, h3⟩, ?_⟩
  rintro r l' rfl
  rfl

end Loops

section Clients

variable {X : Type} {RX : X → Type} {start size : Nat}

/-- Every function of the interface does what its discipline says. -/
theorem impl_meets (a : OpAct X) {v : View Bool Bool} (h : cpre start size a v) :
    Meets start size (impl a : Code RX (OpRes RX a)) ⟨true, v, none⟩ (fun r l' =>
      ∃ v', l' = ⟨true, v', none⟩ ∧ cpost a v r v') := by
  cases a with
  | bread b =>
    have : Meets start size ((impl (.bread b) : Code RX Handle) >>= Prog.ret) ⟨true, v, none⟩ _ :=
      meets_bread (b := b) (k := Prog.ret) (Q := fun r l' => ∃ v', l' = ⟨true, v', none⟩ ∧ v.held r = none ∧
        v' = v.set r (some (b, false))) rfl (fun h hn => ⟨_, rfl, hn, rfl⟩)
    rw [Prog.bind_ret] at this
    exact this
  | getData h' =>
    refine ⟨⟨rfl, h⟩, ?_⟩
    rintro d l' ⟨rfl, -⟩
    exact ⟨v, rfl, rfl⟩
  | setData h' d =>
    obtain ⟨hop, b, m, hb, hhome⟩ := h
    refine ⟨⟨rfl, b, m, hb, hop, hhome⟩, ?_⟩
    rintro r l' ⟨b', m', hb', rfl⟩
    exact ⟨_, rfl, b', m', hb', rfl⟩
  | logWrite h' =>
    obtain ⟨hop, b, m, hb, hhome⟩ := h
    refine ⟨⟨rfl, rfl, hop, b, m, hb, hhome⟩, ?_⟩
    intro r l' hpost
    match r, hpost with
    | .error msg, hpost =>
      obtain rfl : l' = _ := hpost
      exact meets_panic rfl _
    | .ok (), ⟨b', m', hb', h'⟩ =>
      subst h'
      exact ⟨_, rfl, b', m', hb', rfl⟩
  | bwrite h' => exact False.elim h
  | brelse h' =>
    obtain ⟨b, hb⟩ := h
    refine ⟨⟨rfl, b, hb⟩, ?_⟩
    rintro r l' rfl
    exact ⟨_, rfl, rfl⟩
  | beginOp =>
    refine ⟨⟨rfl, rfl, h⟩, ?_⟩
    rintro r l' rfl
    exact ⟨_, rfl, rfl⟩
  | endOp =>
    refine Prog.wp_mono (endOp_meets h.1 h.2) ?_
    rintro r l' rfl
    exact ⟨_, rfl, rfl⟩
  | panic msg => exact ⟨⟨rfl, trivial⟩, fun e => Empty.elim e⟩
  | aux x =>
    refine ⟨⟨rfl, trivial⟩, ?_⟩
    rintro r l' rfl
    exact ⟨v, rfl, rfl⟩

theorem client_meets {α : Type} {c : Prog (OpAct X) (OpRes RX) α} {v : View Bool Bool} {Q : α → View Bool Bool → Prop}
    (h : c.wp (cpre start size) cpost v Q) :
    Meets start size (c.interp impl : Code RX α) ⟨true, v, none⟩ (fun x l' =>
      ∃ v', l' = ⟨true, v', none⟩ ∧ Q x v') := by
  induction c generalizing v with
  | ret x => exact ⟨v, rfl, h⟩
  | act a k ih =>
    refine meets_seq (impl_meets a h.1) ?_
    rintro r l' ⟨v', rfl, hpost⟩
    exact ih r (h.2 r v' hpost)

end Clients

end Xv6.Log
