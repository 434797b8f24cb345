import Xv6.Vm.Load

/-!
# The arguments of a program

`exec` pushes the argument strings and then the array of pointers to them, each at a multiple of 16.
All positions follow from the lengths: `sp` has gone down by the sum of the lengths rounded up.
-/

namespace Xv6.Vm

open Bytes Fallible
open Xv6.Fs (PGSIZE)

variable {K : Symbols} {m m₀ : Mem} {r q sz k g : Nat} {F₀ : Set Nat} {P : Prop}
variable {flags : Nat → Nat} {what : Nat → UInt8}

/-! ## Bytes at an address -/

/-- The bytes `l` are at address `a`. -/
def Holds (what : Nat → UInt8) (a : Nat) (l : List UInt8) : Prop := ∀ j < l.length, what (a + j) = l.getD j 0

theorem holds_patch {a : Nat} {l : List UInt8} : Holds (patch what a l) a l := by
  intro j hj
  rw [patch, if_pos (by omega), Nat.add_sub_cancel_left]

theorem Holds.congr {what' : Nat → UInt8} {a : Nat} {l : List UInt8} (h : Holds what a l)
    (same : ∀ x, a ≤ x → x < a + l.length → what' x = what x) : Holds what' a l := by
  intro j hj
  rw [same (a + j) (by omega) (by omega), h j hj]

/-! ## `copyout` to one page -/

theorem run_copyout_page {o : Nat} {l : List UInt8} (im : Image K m₀ F₀ r q m sz flags what) (hk : k < pages sz)
    (user : flags k = userFlags) (ho : o < PGSIZE) (fits : o + l.length ≤ PGSIZE) :
    Meets (copyout (r * PGSIZE) (k * PGSIZE + o) l) m P fun x m' =>
      x = 0 ∧ Image K m₀ F₀ r q m' sz flags (patch what (k * PGSIZE + o) l) := by
  obtain ⟨t, N, T, F, im⟩ := im
  obtain ⟨p, entry, -⟩ := im.page k hk
  rw [user] at entry
  have start : pgrounddown (k * PGSIZE + o) = k * PGSIZE := by rw [pgrounddown, at_div ho]
  cases l with
  | nil =>
    rw [patch_nil]
    exact Meets.pure ⟨rfl, t, N, T, F, im⟩
  | cons c l =>
    have whole : min (PGSIZE - (k * PGSIZE + o - k * PGSIZE)) (c :: l).length = (c :: l).length := by omega
    rw [copyout, List.length_cons, copyoutFrom, if_neg (by simp)]
    simp only [start, whole, List.take_length, List.drop_length]
    refine Meets.bind (walkaddr_user im (by rwa [base_div])) ?_
    rintro _ m ⟨rfl, rfl⟩
    have ram := im.img.ram (mem_frames hk entry)
    rw [if_neg ram.pos.ne', Nat.add_sub_cancel_left]
    refine Meets.step store_run ?_
    have done : ∀ rounds va, copyoutFrom (r * PGSIZE) rounds va [] = pure 0 := by
      intro rounds va
      cases rounds with
      | zero => rfl
      | succ rounds => rw [copyoutFrom, if_pos rfl]
    rw [done]
    exact Meets.pure ⟨rfl, t, N, T, F, im.store hk entry fits ho⟩

/-! ## Lowering `sp` -/

/-- What is subtracted from `sp` for `n` bytes. -/
def room (n : Nat) : Nat := (n + 15) / 16 * 16

/-- What the strings take. -/
def need (argv : List (List UInt8)) : Nat := (argv.map fun s => room (s.length + 1)).sum

theorem need_cons {s : List UInt8} {argv : List (List UInt8)} :
    need (s :: argv) = room (s.length + 1) + need argv := rfl

/-- What the strings and the array of pointers take. -/
def stackNeed (argv : List (List UInt8)) : Nat := need argv + room ((argv.length + 1) * 8)

theorem lower_run {sp n : Nat} (aligned : sp % 16 = 0) (le : n ≤ sp) (lt : sp < 2 ^ 64) :
    lower wrapping sp n m = .ok (sp - room n, m) := by
  have down : sp - n - (sp - n) % 16 = sp - room n := by
    simp only [room]
    omega
  rw [lower, bind_ok (wrapping_run lt le), wrapping_run (by omega) (Nat.mod_le ..), down]

/-- Where the strings are if `d` bytes below `top` are taken. -/
def addresses (top : Nat) : (d : Nat) → List (List UInt8) → List Nat
  | _, [] => []
  | d, s :: argv => (top - (d + room (s.length + 1))) :: addresses top (d + room (s.length + 1)) argv

theorem length_addresses {top d : Nat} {argv : List (List UInt8)} : (addresses top d argv).length = argv.length := by
  induction argv generalizing d with
  | nil => rfl
  | cons s argv ih => rw [addresses, List.length_cons, List.length_cons, ih]

/-- The strings are in place. -/
def Strings (what : Nat → UInt8) (top d : Nat) (argv : List (List UInt8)) : Prop :=
  List.Forall₂ (fun a s => Holds what a (s ++ [0])) (addresses top d argv) argv

section Push

variable {argv : List (List UInt8)} {d n : Nat}

theorem room_le (h : n ≤ PGSIZE) : room n ≤ PGSIZE := by
  simp only [room, PGSIZE] at *
  omega

theorem le_room : n ≤ room n := by
  simp only [room]
  omega

/-- A string or array pushed on the stack page, if there is room. -/
theorem run_push {α : Type} {l : List UInt8} {Q : α → Mem → Prop} {f : Nat → Code α} {none : α}
    (im : Image K m₀ F₀ r q m ((g + 2) * PGSIZE) (guarded g) what) (hd : d ≤ PGSIZE) (aligned : d % 16 = 0)
    (pos : 0 < l.length) (short : l.length ≤ PGSIZE) (full : PGSIZE < d + room l.length → Q none m)
    (rest : ∀ m', d + room l.length ≤ PGSIZE → Image K m₀ F₀ r q m' ((g + 2) * PGSIZE) (guarded g)
        (patch what ((g + 2) * PGSIZE - (d + room l.length)) l) →
      Meets (f ((g + 2) * PGSIZE - (d + room l.length))) m' P Q) :
    Meets (do let sp ← lower wrapping ((g + 2) * PGSIZE - d) l.length
              if sp < (g + 1) * PGSIZE then return none
              else do
                let x ← copyout (r * PGSIZE) sp l
                if x < 0 then return none else f sp) m P Q := by
  have bound := im.bound
  rw [pages_base] at bound
  have low : room l.length ≤ PGSIZE := room_le short
  have up : l.length ≤ room l.length := le_room
  have down : (g + 2) * PGSIZE - d - room l.length = (g + 2) * PGSIZE - (d + room l.length) := by omega
  have start : ((g + 2) * PGSIZE - d) % 16 = 0 := by
    simp only [PGSIZE] at *
    omega
  have le : l.length ≤ (g + 2) * PGSIZE - d := by
    simp only [PGSIZE] at *
    omega
  have lt : (g + 2) * PGSIZE - d < 2 ^ 64 := by
    simp only [PGSIZE] at *
    omega
  refine Meets.step (lower_run start le lt) ?_
  rw [down]
  by_cases fits : d + room l.length ≤ PGSIZE
  · have above : ¬ (g + 2) * PGSIZE - (d + room l.length) < (g + 1) * PGSIZE := by
      simp only [PGSIZE] at *
      omega
    have place : (g + 2) * PGSIZE - (d + room l.length) = (g + 1) * PGSIZE + (PGSIZE - (d + room l.length)) := by
      simp only [PGSIZE] at *
      omega
    rw [if_neg above]
    have copy : Meets (copyout (r * PGSIZE) ((g + 1) * PGSIZE + (PGSIZE - (d + room l.length))) l) m P _ :=
      run_copyout_page im (by rw [pages_base]; omega) (Function.update_of_ne (by omega) ..) (by omega) (by omega)
    rw [← place] at copy
    refine Meets.bind copy ?_
    rintro _ m' ⟨rfl, im'⟩
    rw [if_neg (by decide)]
    exact rest m' fits im'
  · have below : (g + 2) * PGSIZE - (d + room l.length) < (g + 1) * PGSIZE := by
      simp only [PGSIZE] at *
      omega
    rw [if_pos below]
    exact Meets.pure (full (by omega))

/-- The loop over the arguments, once `d` bytes of the page are taken. -/
theorem run_pushStrings {argc : Nat} {us : List Nat} (im : Image K m₀ F₀ r q m ((g + 2) * PGSIZE) (guarded g) what)
    (hd : d ≤ PGSIZE) (aligned : d % 16 = 0) (short : ∀ s ∈ argv, s.length < PGSIZE)
    (few : argc + argv.length ≤ MAXARG) :
    Meets (pushStrings wrapping (r * PGSIZE) ((g + 1) * PGSIZE) argc argv ((g + 2) * PGSIZE - d) us) m P fun x m' =>
      ∃ what', Image K m₀ F₀ r q m' ((g + 2) * PGSIZE) (guarded g) what' ∧
        (∀ a, a < (g + 1) * PGSIZE → what' a = what a) ∧
        (x = none ∧ PGSIZE < d + need argv ∨
          x = some ((g + 2) * PGSIZE - (d + need argv), us ++ addresses ((g + 2) * PGSIZE) d argv) ∧
          d + need argv ≤ PGSIZE ∧ Strings what' ((g + 2) * PGSIZE) d argv ∧
          ∀ a, (g + 2) * PGSIZE - d ≤ a → what' a = what a) := by
  induction argv generalizing argc d us m what with
  | nil =>
    refine Meets.pure ⟨what, im, fun _ _ => rfl, .inr ⟨?_, hd, .nil, fun _ _ => rfl⟩⟩
    rw [addresses, List.append_nil]
    rfl
  | cons s argv ih =>
    have length : (s ++ [0]).length = s.length + 1 := by simp
    obtain ⟨first, short⟩ := List.forall_mem_cons.mp short
    rw [List.length_cons] at few
    rw [pushStrings, if_neg (by omega), ← length, need_cons, ← length]
    refine run_push im hd aligned (by omega) (by omega) ?_ ?_
    · intro full
      exact ⟨what, im, fun _ _ => rfl, .inl ⟨rfl, by omega⟩⟩
    · intro m₁ fits im₁
      have multiple : (d + room (s ++ [0]).length) % 16 = 0 := by
        simp only [room]
        omega
      have size := le_room (n := (s ++ [0]).length)
      have top : PGSIZE ≤ (g + 2) * PGSIZE := Nat.le_mul_of_pos_left _ (by omega)
      refine (ih im₁ fits multiple short (by omega)).mono ?_
      rintro x m₂ ⟨what', im₂, below, result⟩
      rw [← Nat.add_assoc]
      refine ⟨what', im₂, fun a ha => ?_, ?_⟩
      · rw [below a ha, patch_outside]
        simp only [PGSIZE] at *
        omega
      rcases result with failed | ⟨rfl, fits', strings, above⟩
      · exact .inl failed
      · refine .inr ⟨?_, fits', ?_, ?_⟩
        · rw [addresses, List.append_assoc, List.singleton_append, length]
        · rw [Strings, addresses, ← length]
          refine .cons ?_ strings
          exact holds_patch.congr fun a low _ => above a low
        · intro a ha
          rw [above a (by omega), patch_outside]
          omega

theorem length_pointers {us : List Nat} : ((us ++ [0]).flatMap (leBytes 8)).length = (us.length + 1) * 8 := by
  simp [List.length_flatMap, Nat.add_mul]

theorem need_aligned : need argv % 16 = 0 := by
  induction argv with
  | nil => rfl
  | cons s argv ih =>
    rw [need_cons]
    simp only [room]
    omega

/-- Strings stay in place when only bytes below them change. -/
theorem Strings.congr {what' : Nat → UInt8} {top : Nat} (h : Strings what top d argv)
    (same : ∀ x, top - (d + need argv) ≤ x → what' x = what x) : Strings what' top d argv := by
  induction argv generalizing d with
  | nil => exact .nil
  | cons s argv ih =>
    rw [need_cons] at same
    rw [Strings, addresses] at h ⊢
    obtain ⟨first, rest⟩ := List.forall₂_cons.mp h
    refine .cons (first.congr fun x low _ => same x (by omega)) (ih rest fun x low => same x ?_)
    omega

/-- `pushArgs` needs a page for the strings and the array, and fails if they do not fit. -/
theorem run_pushArgs (im : Image K m₀ F₀ r q m ((g + 2) * PGSIZE) (guarded g) what)
    (short : ∀ s ∈ argv, s.length < PGSIZE) (few : argv.length < MAXARG) :
    Meets (pushArgs wrapping (r * PGSIZE) ((g + 2) * PGSIZE) argv) m P fun x m' =>
      ∃ what', Image K m₀ F₀ r q m' ((g + 2) * PGSIZE) (guarded g) what' ∧
        (∀ a, a < (g + 1) * PGSIZE → what' a = what a) ∧
        (x = none ∧ PGSIZE < stackNeed argv ∨
          x = some ((g + 2) * PGSIZE - stackNeed argv) ∧ stackNeed argv ≤ PGSIZE ∧
          Strings what' ((g + 2) * PGSIZE) 0 argv ∧
          Holds what' ((g + 2) * PGSIZE - stackNeed argv)
            ((addresses ((g + 2) * PGSIZE) 0 argv ++ [0]).flatMap (leBytes 8))) := by
  have bound := im.bound
  rw [pages_base] at bound
  have base : (g + 2) * PGSIZE - PGSIZE = (g + 1) * PGSIZE := by
    simp only [PGSIZE]
    omega
  have lt : (g + 2) * PGSIZE < 2 ^ 64 := by
    simp only [PGSIZE]
    omega
  have top : PGSIZE ≤ (g + 2) * PGSIZE := Nat.le_mul_of_pos_left _ (by omega)
  rw [pushArgs]
  refine Meets.step (wrapping_run lt top) ?_
  rw [base]
  refine Meets.bind (run_pushStrings im (Nat.zero_le _) rfl short (by omega)) ?_
  rintro _ m₁ ⟨what₁, im₁, below, ⟨rfl, full⟩ | ⟨rfl, fits, strings, -⟩⟩
  · rw [Nat.zero_add] at full
    exact Meets.pure ⟨what₁, im₁, below, .inl ⟨rfl, full.trans_le (Nat.le_add_right ..)⟩⟩
  · rw [Nat.zero_add] at fits
    rw [List.nil_append]
    have length : ((addresses ((g + 2) * PGSIZE) 0 argv ++ [0]).flatMap (leBytes 8)).length = (argv.length + 1) * 8 := by
      rw [length_pointers, length_addresses]
    simp only [Nat.zero_add, stackNeed]
    rw [← length]
    refine run_push im₁ fits need_aligned (by omega) ?_ ?_ ?_
    · simp only [MAXARG, PGSIZE] at *
      omega
    · exact fun full => ⟨what₁, im₁, below, .inl ⟨rfl, full⟩⟩
    · intro m₂ fits' im₂
      refine Meets.pure ⟨_, im₂, fun a ha => ?_, .inr ⟨rfl, fits', ?_, holds_patch⟩⟩
      · rw [patch_outside, below a ha]
        simp only [PGSIZE] at *
        omega
      · refine strings.congr fun a ha => patch_outside (.inr ?_)
        have := le_room (n := ((addresses ((g + 2) * PGSIZE) 0 argv ++ [0]).flatMap (leBytes 8)).length)
        omega

/-! ## Where everything is -/

/-- The strings and the array of pointers, each with its length. -/
def areas (sp : Nat) (ptrs : List Nat) (argv : List (List UInt8)) : List (Nat × Nat) :=
  (sp, (argv.length + 1) * 8) :: ptrs.zip (argv.map fun s => s.length + 1)

def Apart (a b : Nat × Nat) : Prop := a.1 + a.2 ≤ b.1 ∨ b.1 + b.2 ≤ a.1

theorem strings_inside {top : Nat} {a : Nat × Nat} (fits : d + need argv ≤ top)
    (h : a ∈ (addresses top d argv).zip (argv.map fun s => s.length + 1)) :
    top - (d + need argv) ≤ a.1 ∧ a.1 + a.2 ≤ top - d := by
  induction argv generalizing d with
  | nil => cases h
  | cons s argv ih =>
    rw [need_cons] at *
    rw [addresses, List.map_cons, List.zip_cons_cons] at h
    have := le_room (n := s.length + 1)
    rcases List.mem_cons.mp h with rfl | h
    · constructor
      · exact Nat.sub_le_sub_left (by omega) top
      · simp only
        omega
    · have := ih (d := d + room (s.length + 1)) (by omega) h
      omega

theorem strings_apart {top : Nat} (fits : d + need argv ≤ top) :
    ((addresses top d argv).zip (argv.map fun s => s.length + 1)).Pairwise Apart := by
  induction argv generalizing d with
  | nil => exact .nil
  | cons s argv ih =>
    rw [need_cons] at fits
    rw [addresses, List.map_cons, List.zip_cons_cons]
    refine .cons (fun a ha => .inr ?_) (ih (by omega))
    exact (strings_inside (by omega) ha).2

/-- The areas are inside the page and do not overlap. -/
theorem areas_apart {top : Nat} (fits : stackNeed argv ≤ top) :
    (∀ a ∈ areas (top - stackNeed argv) (addresses top 0 argv) argv, top - stackNeed argv ≤ a.1 ∧ a.1 + a.2 ≤ top) ∧
      (areas (top - stackNeed argv) (addresses top 0 argv) argv).Pairwise Apart := by
  have array := le_room (n := (argv.length + 1) * 8)
  rw [stackNeed] at *
  have inside : ∀ a ∈ (addresses top 0 argv).zip (argv.map fun s => s.length + 1),
      top - need argv ≤ a.1 ∧ a.1 + a.2 ≤ top := by
    intro a ha
    have := strings_inside (by omega) ha
    omega
  constructor
  · intro a ha
    rcases List.mem_cons.mp ha with rfl | ha
    · simp only
      omega
    · have := inside a ha
      omega
  · refine .cons (fun a ha => .inl ?_) (strings_apart (by omega))
    have := inside a ha
    simp only
    omega

theorem addresses_aligned {top : Nat} (ht : top % 16 = 0) (hd : d % 16 = 0) :
    ∀ a ∈ addresses top d argv, a % 16 = 0 := by
  induction argv generalizing d with
  | nil => exact nofun
  | cons s argv ih =>
    rw [addresses]
    have multiple : (d + room (s.length + 1)) % 16 = 0 := by
      simp only [room]
      omega
    exact List.forall_mem_cons.mpr ⟨by omega, ih multiple⟩

end Push

/-! ## No subtraction wraps -/

/-- Subtraction that stops the program where it would wrap. -/
def checked : Subtract := fun a b => if a < b then throw "wraps" else return a - b

section Checked

variable {a b pagetable stackbase : Nat} {argv : List (List UInt8)}

theorem checked_eq (ha : a < 2 ^ 64) (le : b ≤ a) : checked a b = wrapping a b := by
  funext m
  rw [wrapping_run ha le, checked, if_neg (by omega)]
  rfl

theorem lower_wrapping {sp n : Nat} (lt : sp < 2 ^ 64) (le : n ≤ sp) :
    lower wrapping sp n m = .ok (sp - n - (sp - n) % 16, m) := by
  rw [lower, bind_ok (wrapping_run lt le), wrapping_run (by omega) (Nat.mod_le ..)]

theorem lower_checked {sp n : Nat} (lt : sp < 2 ^ 64) (le : n ≤ sp) : lower checked sp n = lower wrapping sp n := by
  funext m
  rw [lower_wrapping lt le, lower, checked_eq lt le, bind_ok (wrapping_run lt le), checked_eq (by omega) (Nat.mod_le ..),
    wrapping_run (by omega) (Nat.mod_le ..)]

theorem pushStrings_checked {argc sp : Nat} {us : List Nat} (low : PGSIZE ≤ stackbase) (above : stackbase ≤ sp)
    (lt : sp < 2 ^ 64) (short : ∀ s ∈ argv, s.length < PGSIZE) :
    pushStrings checked pagetable stackbase argc argv sp us = pushStrings wrapping pagetable stackbase argc argv sp us := by
  induction argv generalizing argc sp us with
  | nil => rfl
  | cons s argv ih =>
    obtain ⟨first, short⟩ := List.forall_mem_cons.mp short
    have le : s.length + 1 ≤ sp := by omega
    funext m
    rw [pushStrings, pushStrings, lower_checked lt le]
    split
    case isTrue => rfl
    case isFalse =>
      rw [bind_ok (lower_wrapping lt le), bind_ok (lower_wrapping lt le)]
      split
      case isTrue => rfl
      case isFalse room =>
        have rest : ∀ us, pushStrings checked pagetable stackbase (argc + 1) argv _ us = _ :=
          fun us => ih (Nat.le_of_not_lt room) (by omega) short
        simp only [rest]

/-- The last `sp` of the loop is not below the page. -/
theorem pushStrings_above {argc sp sp' : Nat} {us us' : List Nat} {m' : Mem} (low : PGSIZE ≤ stackbase)
    (above : stackbase ≤ sp) (lt : sp < 2 ^ 64) (short : ∀ s ∈ argv, s.length < PGSIZE)
    (ran : pushStrings wrapping pagetable stackbase argc argv sp us m = .ok (some (sp', us'), m')) :
    stackbase ≤ sp' ∧ sp' < 2 ^ 64 := by
  induction argv generalizing argc sp us m with
  | nil =>
    obtain ⟨rfl, -⟩ := Prod.mk.inj (Option.some.inj (Prod.mk.inj (Except.ok.inj ran)).1)
    exact ⟨above, lt⟩
  | cons s argv ih =>
    obtain ⟨first, short⟩ := List.forall_mem_cons.mp short
    have le : s.length + 1 ≤ sp := by omega
    rw [pushStrings] at ran
    split at ran
    case isTrue => cases ran
    case isFalse =>
      rw [bind_ok (lower_wrapping lt le)] at ran
      split at ran
      case isTrue => cases ran
      case isFalse room =>
        obtain ⟨x, m₁, -, rest⟩ := bind_ok_inv ran
        split at rest
        case isTrue => cases rest
        case isFalse => exact ih (Nat.le_of_not_lt room) (by omega) short rest

/-- `pushArgs` never subtracts more from `sp` than it is. -/
theorem pushArgs_checked (low : 2 * PGSIZE ≤ sz) (lt : sz < 2 ^ 64) (short : ∀ s ∈ argv, s.length < PGSIZE)
    (few : argv.length < MAXARG) : pushArgs checked pagetable sz argv = pushArgs wrapping pagetable sz argv := by
  have le : PGSIZE ≤ sz := by omega
  have base : PGSIZE ≤ sz - PGSIZE := by omega
  funext m
  rw [pushArgs, pushArgs, checked_eq lt le, bind_ok (wrapping_run lt le), bind_ok (wrapping_run lt le),
    pushStrings_checked base (Nat.sub_le ..) lt short]
  cases ran : pushStrings wrapping pagetable (sz - PGSIZE) 0 argv sz [] m with
  | error e => exact (bind_error ran).trans (bind_error ran).symm
  | ok x =>
    obtain ⟨result, m'⟩ := x
    rw [bind_ok ran, bind_ok ran]
    cases result with
    | none => rfl
    | some x =>
      obtain ⟨sp, us⟩ := x
      obtain ⟨above, lt'⟩ := pushStrings_above base (Nat.sub_le ..) lt short ran
      have fits : (argv.length + 1) * 8 ≤ sp := by
        simp only [MAXARG, PGSIZE] at *
        omega
      simp only [lower_checked lt' fits]

end Checked

end Xv6.Vm
