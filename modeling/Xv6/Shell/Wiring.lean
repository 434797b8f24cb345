import Mathlib
import Xv6.Shell.Runcmd

/-!
# Descriptors of the commands in a tree

`Node t π c e`: the subcommand of `t` at `π` is `c`, and `e` is what it finds at the descriptors 0, 1 and 2
when it is run. A redirection replaces one of them, the left side of a pipe has its write end at 1 and the
right side its read end at 0.

`Ok` is a precondition for the statements that a process has still to execute. No statement is ever executed twice
(`Inv.once`); so a process that closes an end of a pipe in one of them has closed it once the statement is done,
and no other process can be before it.
-/

namespace Xv6.Shell

variable {σ : Type}

/-! ## What should be open -/

/-- A side of a pipe. -/
inductive Side where
  | left
  | right
deriving DecidableEq

def Side.turn : Side → Turn
  | .left => .left
  | .right => .right

/-- The descriptor that a side has its end of the pipe at. -/
def Side.fd : Side → Nat
  | .left => 1
  | .right => 0

def Side.pipeEnd (π : Path) : Side → Obj σ
  | .left => .writeEnd π
  | .right => .readEnd π

def Side.cmd (l r : Cmd σ) : Side → Cmd σ
  | .left => l
  | .right => r

abbrev Env (σ : Type) : Type := Nat → Obj σ

inductive Node (t : Cmd σ) : Path → Cmd σ → Env σ → Prop where
  | root : Node t [] t .given
  /-- The descriptor is closed first, which fails if it is not open. -/
  | redir {π : Path} {c : Cmd σ} {file : σ} {mode fd : Nat} {e : Env σ} (up : Node t π (.redir c file mode fd) e)
      (std : fd < 3) : Node t (.redir :: π) c (Function.update e fd (.file π file mode))
  | first {π : Path} {l r : Cmd σ} {e : Env σ} (up : Node t π (.list l r) e) : Node t (.first :: π) l e
  | second {π : Path} {l r : Cmd σ} {e : Env σ} (up : Node t π (.list l r) e) : Node t (.second :: π) r e
  | side {π : Path} {l r : Cmd σ} {e : Env σ} (up : Node t π (.pipe l r) e) (s : Side) :
      Node t (s.turn :: π) (s.cmd l r) (Function.update e s.fd (s.pipeEnd π))
  | back {π : Path} {c : Cmd σ} {e : Env σ} (up : Node t π (.back c) e) : Node t (.back :: π) c e

/-- On the way from `side` down to `ρ` a redirection or a pipe puts something else at `fd`. -/
def Replaced (t : Cmd σ) (fd : Nat) (side ρ : Path) : Prop :=
  ∃ π, side <:+ π ∧
    ((∃ c file mode e, Node t π (.redir c file mode fd) e ∧ .redir :: π <:+ ρ) ∨
      ∃ s : Side, s.fd = fd ∧ s.turn :: π <:+ ρ)

section Nodes

variable {t c : Cmd σ} {π ρ : Path} {e : Env σ} {s s' : Side} {i fd : Nat}

theorem turn_injective (h : s.turn = s'.turn) : s = s' := by
  cases s <;> cases s' <;> first | rfl | cases h

theorem fd_injective (h : s.fd = s'.fd) : s = s' := by
  cases s <;> cases s' <;> first | rfl | cases h

theorem pipeEnd_injective (h : s.pipeEnd π = (s'.pipeEnd ρ : Obj σ)) : s = s' ∧ π = ρ := by
  cases s <;> cases s' <;> cases h <;> exact ⟨rfl, rfl⟩

theorem file_ne_pipeEnd {file : σ} {mode : Nat} : .file ρ file mode ≠ s.pipeEnd π := by
  cases s <;> nofun

theorem given_ne_pipeEnd : (.given i : Obj σ) ≠ s.pipeEnd π := by
  cases s <;> nofun

theorem update_eq {f g : Obj σ} (h : Function.update e fd f i = g) : f = g ∨ e i = g := by
  by_cases same : i = fd
  · subst same
    rw [Function.update_self] at h
    exact .inl h
  · rw [Function.update_of_ne same] at h
    exact .inr h

theorem cons_suffix {a b : Turn} (h : a :: π <:+ b :: ρ) : a = b ∧ π = ρ ∨ a :: π <:+ ρ := by
  rcases List.suffix_cons_iff.1 h with same | below
  · cases same
    exact .inl ⟨rfl, rfl⟩
  · exact .inr below

/-- An end of a pipe is open only in the side that it is for. -/
theorem Node.inside (h : Node t ρ c e) (end_ : e i = s.pipeEnd π) : s.turn :: π <:+ ρ := by
  induction h generalizing i with
  | root => exact absurd end_ given_ne_pipeEnd
  | redir up std ih => exact (ih ((update_eq end_).resolve_left file_ne_pipeEnd)).trans (List.suffix_cons _ _)
  | first up ih | second up ih | back up ih => exact (ih end_).trans (List.suffix_cons _ _)
  | side up s' ih =>
    rcases update_eq end_ with same | old
    · obtain ⟨rfl, rfl⟩ := pipeEnd_injective same
      exact List.suffix_rfl
    · exact (ih old).trans (List.suffix_cons _ _)

theorem Replaced.below {side : Path} {turn : Turn} (h : Replaced t fd side ρ) : Replaced t fd side (turn :: ρ) := by
  obtain ⟨π, inside, ⟨c, file, mode, e, node, way⟩ | ⟨s, at_, way⟩⟩ := h
  · exact ⟨π, inside, .inl ⟨c, file, mode, e, node, way.trans (List.suffix_cons _ _)⟩⟩
  · exact ⟨π, inside, .inr ⟨s, at_, way.trans (List.suffix_cons _ _)⟩⟩

/-- Inside a side its end of the pipe is open, unless it was replaced. -/
theorem Node.wired (h : Node t ρ c e) (inside : s.turn :: π <:+ ρ) :
    e s.fd = s.pipeEnd π ∨ Replaced t s.fd (s.turn :: π) ρ := by
  induction h with
  | root => exact absurd (List.suffix_nil.1 inside) (List.cons_ne_nil _ _)
  | @redir ρ c file mode fd e up std ih =>
    have above : s.turn :: π <:+ ρ := (cons_suffix inside).resolve_left fun h => by
      cases s <;> exact absurd h.1 nofun
    by_cases same : s.fd = fd
    · exact .inr ⟨ρ, above, .inl ⟨c, file, mode, e, same ▸ up, List.suffix_rfl⟩⟩
    · rw [Function.update_of_ne same]
      exact (ih above).imp_right Replaced.below
  | first up ih | second up ih | back up ih =>
    refine (ih ((cons_suffix inside).resolve_left fun h => ?_)).imp_right Replaced.below
    cases s <;> exact absurd h.1 nofun
  | @side ρ l r e up s' ih =>
    rcases cons_suffix inside with ⟨same, rfl⟩ | above
    · obtain rfl := turn_injective same
      exact .inl (Function.update_self ..)
    · by_cases same : s = s'
      · subst same
        exact .inr ⟨ρ, above, .inr ⟨s, rfl, List.suffix_rfl⟩⟩
      · rw [Function.update_of_ne (mt fd_injective same)]
        exact (ih above).imp_right Replaced.below

theorem not_replaced_self {side : Path} : ¬Replaced t fd side side := by
  have apart {π : Path} {turn : Turn} (inside : side <:+ π) (way : turn :: π <:+ side) : False :=
    absurd (way.length_le.trans inside.length_le) (Nat.not_succ_le_self _)
  rintro ⟨π, inside, ⟨_, _, _, _, _, way⟩ | ⟨_, _, way⟩⟩
  · exact apart inside way
  · exact apart inside way

theorem Node.redirected (h : Node t (.redir :: π) c e) :
    ∃ file mode fd e', Node t π (.redir c file mode fd) e' ∧ fd < 3 ∧ e fd = .file π file mode := by
  generalize way : Turn.redir :: π = ρ at h
  cases h with
  | @redir _ _ file mode fd e' up std =>
    cases way
    exact ⟨file, mode, fd, e', up, std, Function.update_self ..⟩
  | side up s => cases s <;> cases way
  | root | first | second | back => cases way

end Nodes

/-! ## Statements to come -/

/-- Lines of the `runcmd` of one node. -/
def lines (π : Path) (l : List Nat) : Multiset Label := (l.map fun n => (π, n) : List Label)

/-- The statements that running a command executes, in whatever process. -/
def Cmd.labels : Cmd σ → Path → Multiset Label
  | .exec argv, π => lines π [58, if argv = [] then 77 else 78]
  | .redir cmd _ _ _, π => lines π [58, 84, 85] + cmd.labels (.redir :: π)
  | .list left right, π => lines π [58, 94, 96] + (left.labels (.first :: π) + right.labels (.second :: π))
  | .pipe left right, π =>
    lines π [58, 102, 104, 105, 106, 107, 108, 111, 112, 113, 114, 115, 118, 119, 120, 121, 130] +
      (left.labels (.left :: π) + right.labels (.right :: π))
  | .back cmd, π => lines π [58, 126, 130] + cmd.labels (.back :: π)

def Branch.labels (π : Path) : Branch σ → Multiset Label
  | .run turn cmd => cmd.labels (turn :: π)
  | .left cmd => lines π [105, 106, 107, 108] + cmd.labels (.left :: π)
  | .right cmd => lines π [112, 113, 114, 115] + cmd.labels (.right :: π)

def Stmt.labels (s : Stmt σ) : Multiset Label :=
  match s.act with
  | .run node cmd => cmd.labels node
  | .fork child => s.label ::ₘ child.labels s.label.1
  | _ => {s.label}

/-- What a process still executes, or its children. -/
def future (code : List (Stmt σ)) : Multiset Label := (code.map Stmt.labels).sum

section Labels

variable {c : Cmd σ} {π : Path} {code : List (Stmt σ)} {s : Stmt σ} {x : Label} {l : List Nat}

@[simp] theorem future_cons : future (s :: code) = s.labels + future code := by
  simp [future]

@[simp] theorem future_nil : future ([] : List (Stmt σ)) = 0 := rfl

theorem lines_cons {n : Nat} : lines π (n :: l) = (π, n) ::ₘ lines π l := rfl

theorem lines_nil : lines π [] = 0 := rfl

theorem labels_branch (b : Branch σ) : b.labels π = future (b.code π) := by
  cases b with
  | run turn cmd => simp [Branch.labels, Branch.code, Stmt.labels, call]
  | left cmd | right cmd =>
    simp only [Branch.labels, Branch.code, future_cons, future_nil, Stmt.labels, call, lines_cons, lines_nil,
      ← Multiset.singleton_add]
    abel

theorem labels_body : c.labels π = (π, 58) ::ₘ future (body π c) := by
  cases c with
  | exec argv => by_cases none : argv = [] <;> simp [Cmd.labels, body, none, Stmt.labels, lines_cons, lines_nil]
  | redir cmd file mode fd | list left right | pipe left right | back cmd =>
    simp only [Cmd.labels, body, Branch.labels, future_cons, future_nil, Stmt.labels, call, lines_cons, lines_nil,
      ← Multiset.singleton_add]
    abel

@[simp] theorem mem_labels : (π, 58) ∈ c.labels π := by
  rw [labels_body]
  exact Multiset.mem_cons_self _ _

theorem mem_lines (h : x ∈ lines π l) : x.1 = π := by
  obtain ⟨n, _, rfl⟩ := List.mem_map.1 (Multiset.mem_coe.1 h)
  rfl

theorem suffix_of_labels (h : x ∈ c.labels π) : π <:+ x.1 := by
  have own {π : Path} {l : List Nat} (h : x ∈ lines π l) : π <:+ x.1 := mem_lines h ▸ List.suffix_rfl
  have up {π : Path} {turn : Turn} (h : turn :: π <:+ x.1) : π <:+ x.1 := (List.suffix_cons turn π).trans h
  induction c generalizing π with
  | exec argv => exact own h
  | redir cmd file mode fd ih | back cmd ih =>
    rcases Multiset.mem_add.1 h with here | below
    · exact own here
    · exact up (ih below)
  | list left right l r | pipe left right l r =>
    rcases Multiset.mem_add.1 h with here | below
    · exact own here
    · rcases Multiset.mem_add.1 below with below | below
      · exact up (l below)
      · exact up (r below)

/-- The lines of a node are not those of nodes below it. -/
theorem nodup_of_below {rest : Multiset Label} (own : l.Nodup) (nodup : rest.Nodup)
    (below : ∀ x ∈ rest, ∃ turn, turn :: π <:+ x.1) : (lines π l + rest).Nodup := by
  refine Multiset.nodup_add.2 ⟨Multiset.coe_nodup.2 (own.map fun _ _ same => (Prod.ext_iff.1 same).2), nodup, ?_⟩
  refine Multiset.disjoint_left.2 fun here there => ?_
  obtain ⟨turn, way⟩ := below _ there
  have := (mem_lines here ▸ way).length_le
  exact absurd this (Nat.not_succ_le_self _)

/-- The parts of a command have no statement in common. -/
theorem nodup_of_parts {a b : Turn} {left right : Cmd σ} (ne : a ≠ b) (l : (left.labels (a :: π)).Nodup)
    (r : (right.labels (b :: π)).Nodup) : (left.labels (a :: π) + right.labels (b :: π)).Nodup := by
  refine Multiset.nodup_add.2 ⟨l, r, Multiset.disjoint_left.2 fun here there => ne ?_⟩
  have same := List.suffix_of_suffix_length_le (suffix_of_labels here) (suffix_of_labels there) (Nat.le_refl _)
  exact (List.cons.inj (same.eq_of_length rfl)).1

theorem labels_nodup : (c.labels π).Nodup := by
  induction c generalizing π with
  | exec argv =>
    refine Multiset.coe_nodup.2 (List.Nodup.map (fun _ _ same => (Prod.ext_iff.1 same).2) ?_)
    split <;> decide
  | redir cmd file mode fd ih | back cmd ih =>
    exact nodup_of_below (by decide) ih fun _ h => ⟨_, suffix_of_labels h⟩
  | list left right l r | pipe left right l r =>
    refine nodup_of_below (by decide) (nodup_of_parts nofun l r) fun _ h => ?_
    rcases Multiset.mem_add.1 h with h | h
    · exact ⟨_, suffix_of_labels h⟩
    · exact ⟨_, suffix_of_labels h⟩

end Labels

/-! ## One process -/

/-- Ends of the pipe at `π` are still to be closed. -/
def Pending (π : Path) (code : List (Stmt σ)) : Prop :=
  (∃ s : Side, (s.turn :: π, 58) ∈ future code) ∨ (π, 119) ∈ future code

/-- Which ends of pipes a process may have. -/
def Safe (node : Path) (code : List (Stmt σ)) (fds : Fds σ) : Prop :=
  ∀ (s : Side) (π : Path), some (s.pipeEnd π) ∈ fds → s.turn :: π <:+ node ∨ Pending π code

/-- Executing the statements at `node` keeps to `Safe`, and runs each command with its descriptors. -/
inductive Ok (t : Cmd σ) (node : Path) : List (Stmt σ) → Nat × Nat → Fds σ → Prop where
  | run {ρ : Path} {c : Cmd σ} {e : Env σ} {code : List (Stmt σ)} {p : Nat × Nat}
      (safe : Safe node (call ρ c :: code) (table e)) (here : Node t ρ c e) :
      Ok t node (call ρ c :: code) p (table e)
  | exec {label : Label} {argv : List σ} {e : Env σ} {code : List (Stmt σ)} {p : Nat × Nat}
      (here : Node t node (.exec argv) e) : Ok t node (⟨label, .exec argv⟩ :: code) p (table e)
  | close {label : Label} {fd : Fd} {code : List (Stmt σ)} {p : Nat × Nat} {fds : Fds σ}
      (safe : Safe node (⟨label, .close fd⟩ :: code) fds)
      (after : ∀ f, fds[fd.val p]? = some (some f) → Ok t node code p (fds.set (fd.val p) none)) :
      Ok t node (⟨label, .close fd⟩ :: code) p fds
  | «open» {label : Label} {file : σ} {mode : Nat} {code : List (Stmt σ)} {p : Nat × Nat} {fds : Fds σ}
      (safe : Safe node (⟨label, .open file mode⟩ :: code) fds)
      (after : ∀ r, fdalloc fds (.file label.1 file mode) = some r → Ok t node code p r.1) :
      Ok t node (⟨label, .open file mode⟩ :: code) p fds
  | pipe {label : Label} {code : List (Stmt σ)} {p : Nat × Nat} {fds : Fds σ}
      (safe : Safe node (⟨label, .pipe⟩ :: code) fds)
      (after : ∀ a b, fdalloc fds (.readEnd label.1) = some a → fdalloc a.1 (.writeEnd label.1) = some b →
        Ok t node code (a.2, b.2) b.1) :
      Ok t node (⟨label, .pipe⟩ :: code) p fds
  | dup {label : Label} {fd : Fd} {code : List (Stmt σ)} {p : Nat × Nat} {fds : Fds σ}
      (safe : Safe node (⟨label, .dup fd⟩ :: code) fds)
      (after : ∀ f r, fds[fd.val p]? = some (some f) → fdalloc fds f = some r → Ok t node code p r.1) :
      Ok t node (⟨label, .dup fd⟩ :: code) p fds
  | fork {label : Label} {child : Branch σ} {code : List (Stmt σ)} {p : Nat × Nat} {fds : Fds σ}
      (safe : Safe node (⟨label, .fork child⟩ :: code) fds) (branch : Ok t node (child.code label.1) p fds)
      (after : Ok t node code p fds) : Ok t node (⟨label, .fork child⟩ :: code) p fds
  | wait {label : Label} {code : List (Stmt σ)} {p : Nat × Nat} {fds : Fds σ}
      (safe : Safe node (⟨label, .wait⟩ :: code) fds) (after : Ok t node code p fds) :
      Ok t node (⟨label, .wait⟩ :: code) p fds
  | exit {label : Label} {code : List (Stmt σ)} {p : Nat × Nat} {fds : Fds σ}
      (safe : Safe node (⟨label, .exit⟩ :: code) fds) : Ok t node (⟨label, .exit⟩ :: code) p fds

section Process

variable {t c l r : Cmd σ} {π : Path} {e : Env σ} {fds : Fds σ} {code : List (Stmt σ)} {p : Nat × Nat}

theorem mem_table {f : Obj σ} (h : some f ∈ table e) : ∃ i, e i = f := by
  simp only [table, List.mem_append, List.mem_cons, List.mem_replicate] at h
  grind

theorem safe_table (here : Node t π c e) : Safe π code (table e) := by
  intro s ρ open_
  obtain ⟨i, at_⟩ := mem_table open_
  exact .inl (here.inside at_)

theorem Safe.closed {node : Path} {fd : Nat} (h : Safe node code fds) : Safe node code (fds.set fd none) := by
  intro s π open_
  exact h s π ((List.mem_or_eq_of_mem_set open_).resolve_right nofun)

theorem open_lt {fd : Nat} {f : Obj σ} (h : (table e)[fd]? = some (some f)) : fd < 3 := by
  match fd, h with
  | 0, _ | 1, _ | 2, _ => decide
  | fd + 3, h =>
    have := List.eq_of_mem_replicate (List.mem_of_getElem? (i := fd) h)
    cases this

theorem fdalloc_closed {fd : Nat} {f : Obj σ} (std : fd < 3) :
    fdalloc ((table e).set fd none) f = some (table (Function.update e fd f), fd) := by
  match fd, std with
  | 0, _ | 1, _ | 2, _ => rfl

/-- Only what the node at `π` found and the ends of its own pipe are open. -/
def Within (e : Env σ) (π : Path) (fds : Fds σ) : Prop :=
  ∀ f, some f ∈ fds → (∃ i, e i = f) ∨ ∃ s : Side, f = s.pipeEnd π

theorem Within.safe (h : Within e π fds) (here : Node t π c e) (pending : Pending π code) : Safe π code fds := by
  intro s ρ open_
  rcases h _ open_ with ⟨i, at_⟩ | ⟨s', same⟩
  · exact .inl (here.inside at_)
  · obtain ⟨rfl, rfl⟩ := pipeEnd_injective same
    exact .inr pending

theorem Within.closed {fd : Nat} (h : Within e π fds) : Within e π (fds.set fd none) := by
  intro f open_
  exact h f ((List.mem_or_eq_of_mem_set open_).resolve_right nofun)

theorem Within.set {fd : Nat} (h : Within e π fds) (s : Side) : Within e π (fds.set fd (some (s.pipeEnd π))) := by
  intro f open_
  rcases List.mem_or_eq_of_mem_set open_ with old | same
  · exact h f old
  · exact .inr ⟨s, Option.some.inj same⟩

theorem Within.table : Within e π (table e) := fun _ open_ => .inl (mem_table open_)

theorem Within.wired (s : Side) : Within e π (Shell.table (Function.update e s.fd (s.pipeEnd π))) := by
  intro f open_
  obtain ⟨i, at_⟩ := mem_table open_
  rcases update_eq at_ with same | old
  · exact .inr ⟨s, same.symm⟩
  · exact .inl ⟨i, old⟩

/-- Descriptors 3 and 4 are the pipe of the node. -/
def piped (e : Env σ) (π : Path) : Fds σ := ((table e).set 3 (some (.readEnd π))).set 4 (some (.writeEnd π))

theorem within_piped : Within e π (piped e π) := (Within.table.set .right).set .left

/-- A side moves its end of the pipe to its descriptor, and closes the two that `pipe` returned. -/
theorem side_ok (here : Node t π (.pipe l r) e) (s : Side) {fd : Fd} {l1 l2 l3 l4 : Label}
    (own : ((piped e π).set s.fd none)[fd.val (3, 4)]? = some (some (s.pipeEnd π))) :
    Ok t π [⟨l1, .close (.lit s.fd)⟩, ⟨l2, .dup fd⟩, ⟨l3, .close .p0⟩, ⟨l4, .close .p1⟩,
      call (s.turn :: π) (s.cmd l r)] (3, 4) (piped e π) := by
  have safe {code : List (Stmt σ)} {fds : Fds σ} (only : Within e π fds)
      (h : (s.turn :: π, 58) ∈ future code) : Safe π code fds := only.safe here (.inl ⟨s, h⟩)
  have moved : fdalloc ((piped e π).set s.fd none) (s.pipeEnd π) =
      some ((piped e π).set s.fd (some (s.pipeEnd π)), s.fd) := by
    cases s <;> rfl
  have wired : (((piped e π).set s.fd (some (s.pipeEnd π))).set 3 none).set 4 none =
      table (Function.update e s.fd (s.pipeEnd π)) := by
    cases s <;> rfl
  have both : Within e π ((piped e π).set s.fd (some (s.pipeEnd π))) := within_piped.set s
  refine .close (safe within_piped (by simp [Stmt.labels, call])) fun _ _ => ?_
  refine .dup (safe within_piped.closed (by simp [Stmt.labels, call])) fun f r open_ alloc => ?_
  obtain rfl : s.pipeEnd π = f := Option.some.inj (Option.some.inj (own.symm.trans open_))
  obtain rfl := Option.some.inj (moved.symm.trans alloc)
  refine .close (safe both (by simp [Stmt.labels, call])) fun _ _ => ?_
  refine .close (safe both.closed (by simp [Stmt.labels, call])) fun _ _ => ?_
  have running : Ok t π [call (s.turn :: π) (s.cmd l r)] (3, 4) (table (Function.update e s.fd (s.pipeEnd π))) :=
    .run (safe (.wired s) (by simp [Stmt.labels, call])) (.side here s)
  rw [← wired] at running
  exact running

/-- The node's own process is left with what it found. -/
theorem body_ok_pipe (here : Node t π (.pipe l r) e) : Ok t π (body π (.pipe l r)) p (table e) := by
  have safe {code : List (Stmt σ)} {fds : Fds σ} (only : Within e π fds)
      (h : (π, 119) ∈ future code) : Safe π code fds := only.safe here (.inr h)
  refine .pipe (safe_table here) fun a b reading writing => ?_
  obtain rfl := Option.some.inj (show some _ = some a from reading)
  obtain rfl := Option.some.inj (show some _ = some b from writing)
  change Ok t π _ (3, 4) (piped e π)
  refine .fork (safe within_piped (by simp [Stmt.labels])) (side_ok here .left rfl) ?_
  refine .fork (safe within_piped (by simp [Stmt.labels])) (side_ok here .right rfl) ?_
  refine .close (safe within_piped (by simp [Stmt.labels])) fun _ _ => ?_
  refine .close (safe within_piped.closed (by simp [Stmt.labels])) fun _ _ => ?_
  change Ok t π _ (3, 4) (table e)
  exact .wait (safe_table here) (.wait (safe_table here) (.exit (safe_table here)))

theorem body_ok (here : Node t π c e) : Ok t π (body π c) p (table e) := by
  cases c with
  | exec argv =>
    rw [body]
    split
    · exact .exit (safe_table here)
    · exact .exec here
  | redir cmd file mode fd =>
    refine .close (safe_table here) fun f open_ => ?_
    have std : fd < 3 := open_lt open_
    refine .open (safe_table here).closed fun r alloc => ?_
    obtain rfl := Option.some.inj ((fdalloc_closed std).symm.trans alloc)
    refine .run ?_ (.redir here std)
    intro s ρ open_
    obtain ⟨i, at_⟩ := mem_table open_
    exact .inl (here.inside ((update_eq at_).resolve_left file_ne_pipeEnd))
  | list left right =>
    refine .fork (safe_table here) ?_ (.wait (safe_table here) ?_)
    · exact .run (safe_table here) (.first here)
    · exact .run (safe_table here) (.second here)
  | pipe left right => exact body_ok_pipe here
  | back cmd =>
    refine .fork (safe_table here) ?_ (.exit (safe_table here))
    exact .run (safe_table here) (.back here)

end Process

/-! ## Runs -/

def Fine (t : Cmd σ) (q : Proc σ) : Prop :=
  match q.mode with
  | .shell => Ok t q.node q.code q.p q.fds
  | .program => q.code = [] ∧ Safe q.node [] q.fds
  | .zombie => q.code = [] ∧ q.fds = []

/-- The statements that have been executed, and those to come. -/
def Run.labels (w : Run σ) : Multiset Label := w.done + (w.procs.map fun q => future q.code).sum

structure Inv (t : Cmd σ) (w : Run σ) : Prop where
  fine : ∀ q ∈ w.procs, Fine t q
  once : w.labels.Nodup

section Runs

variable {t : Cmd σ} {q q' : Proc σ} {s : Stmt σ} {code : List (Stmt σ)} {w w' : Run σ}

theorem Fine.ok (h : Fine t q) (shell : q.mode = .shell) : Ok t q.node q.code q.p q.fds := by
  simpa only [Fine, shell] using h

theorem Fine.program (h : Fine t q) (program : q.mode = .program) : q.code = [] ∧ Safe q.node [] q.fds := by
  simpa only [Fine, program] using h

theorem Fine.zombie (h : Fine t q) (zombie : q.mode = .zombie) : q.code = [] ∧ q.fds = [] := by
  simpa only [Fine, zombie] using h

theorem Ok.safe (h : Ok t q.node q.code q.p q.fds) : Safe q.node q.code q.fds := by
  generalize q.node = node, q.code = code, q.p = p, q.fds = fds at h
  cases h with
  | exec here => exact safe_table here
  | run safe | close safe | «open» safe | pipe safe | dup safe | fork safe | wait safe | exit safe => exact safe

theorem Fine.safe (h : Fine t q) : Safe q.node q.code q.fds := by
  cases mode : q.mode with
  | shell => exact (h.ok mode).safe
  | program =>
    obtain ⟨none, safe⟩ := h.program mode
    rw [none]
    exact safe
  | zombie =>
    rw [(h.zombie mode).2]
    exact nofun

/-- A statement of one process is executed. -/
theorem Ok.next (ok : Ok t q.node q.code q.p q.fds) (shell : q.mode = .shell) (head : q.code = s :: code)
    (next : q.next = some q') : Fine t q' ∧ s.label ::ₘ future q'.code ≤ future q.code := by
  obtain ⟨pid, parent, node, mode, _, p, fds⟩ := q
  dsimp only at ok shell head
  subst shell head
  cases ok with
  | run safe here =>
    cases next
    refine ⟨body_ok here, ?_⟩
    simp [Stmt.labels, call, labels_body, Multiset.zero_le]
  | exec here =>
    cases next
    refine ⟨⟨rfl, safe_table here⟩, ?_⟩
    simp [Stmt.labels]
  | close safe after =>
    simp only [Proc.next] at next
    split at next
    next f open_ =>
      cases next
      exact ⟨after f open_, by simp [Stmt.labels]⟩
    next => cases next
  | «open» safe after =>
    obtain ⟨r, alloc, rfl⟩ := Option.map_eq_some_iff.1 next
    exact ⟨after r alloc, by simp [Stmt.labels]⟩
  | pipe safe after =>
    obtain ⟨a, reading, rest⟩ := Option.bind_eq_some_iff.1 next
    obtain ⟨b, writing, rfl⟩ := Option.map_eq_some_iff.1 rest
    exact ⟨after a b reading writing, by simp [Stmt.labels]⟩
  | dup safe after =>
    simp only [Proc.next] at next
    split at next
    next f open_ =>
      obtain ⟨r, alloc, rfl⟩ := Option.map_eq_some_iff.1 next
      exact ⟨after f r open_ alloc, by simp [Stmt.labels]⟩
    next => cases next
  | fork | wait | exit => cases next

theorem add_le_of_executed {x : Label} {done before after rest : Multiset Label} (h : x ::ₘ after ≤ before) :
    x ::ₘ done + (after + rest) ≤ done + (before + rest) := by
  calc x ::ₘ done + (after + rest) = done + (x ::ₘ after + rest) := by
        simp only [← Multiset.singleton_add]
        abel
    _ ≤ done + (before + rest) := by gcongr

theorem future_reparent {pid : Nat} {rest : Multiset (Proc σ)} :
    ((rest.map (reparent pid)).map fun q => future q.code).sum = (rest.map fun q => future q.code).sum := by
  rw [Multiset.map_map]
  congr 1
  refine Multiset.map_congr rfl fun q _ => ?_
  simp only [Function.comp, reparent]
  split <;> rfl

/-- No step adds statements to those to come. -/
theorem Step.labels_le (step : Step w w') (fine : ∀ q ∈ w.procs, Fine t q) : w'.labels ≤ w.labels := by
  cases step with
  | next shell head next =>
    have less := ((fine _ (Multiset.mem_cons_self _ _)).ok shell).next shell head next
    simp only [Run.labels, Multiset.map_cons, Multiset.sum_cons]
    exact add_le_of_executed less.2
  | fork shell head =>
    refine le_of_eq ?_
    simp only [Run.labels, Multiset.map_cons, Multiset.sum_cons, head, Proc.child, future_cons, Stmt.labels,
      labels_branch]
    simp only [← Multiset.singleton_add]
    abel
  | wait shell head zombie =>
    have ended := ((fine _ (by simp)).zombie zombie).1
    refine le_of_eq ?_
    simp only [Run.labels, Multiset.map_cons, Multiset.sum_cons, head, ended, future_cons, future_nil, Stmt.labels]
    simp only [← Multiset.singleton_add]
    abel
  | exit shell head =>
    simp only [Run.labels, Multiset.map_cons, Multiset.sum_cons, head, future_reparent]
    refine add_le_of_executed ?_
    simp [Proc.exited, Stmt.labels]
  | program => simp [Run.labels]
  | programFork program =>
    have ended := ((fine _ (Multiset.mem_cons_self _ _)).program program).1
    simp [Run.labels, Proc.child, ended]
  | reap zombie =>
    simp only [Run.labels, Multiset.map_cons, Multiset.sum_cons]
    gcongr
    exact le_add_of_nonneg_left (Multiset.zero_le _)
  | programExit =>
    simp only [Run.labels, Multiset.map_cons, Multiset.sum_cons, future_reparent, Proc.exited]
    gcongr
    exact Multiset.zero_le _

theorem fine_exit {rest : Multiset (Proc σ)} {pid : Nat} (others : ∀ q ∈ rest, Fine t q) :
    ∀ q' ∈ q.exited ::ₘ rest.map (reparent pid), Fine t q' := by
  have exited : Fine t q.exited := ⟨rfl, rfl⟩
  refine Multiset.forall_mem_cons.2 ⟨exited, fun q' mem => ?_⟩
  obtain ⟨q, old, rfl⟩ := Multiset.mem_map.1 mem
  unfold reparent
  split <;> exact others q old

theorem Step.fine (step : Step w w') (fine : ∀ q ∈ w.procs, Fine t q) : ∀ q ∈ w'.procs, Fine t q := by
  cases step with
  | next shell head next =>
    obtain ⟨here, others⟩ := Multiset.forall_mem_cons.1 fine
    exact Multiset.forall_mem_cons.2 ⟨((here.ok shell).next shell head next).1, others⟩
  | fork shell head =>
    obtain ⟨here, others⟩ := Multiset.forall_mem_cons.1 fine
    have ok := head ▸ here.ok shell
    cases ok with
    | fork safe branch after =>
      refine Multiset.forall_mem_cons.2 ⟨?_, Multiset.forall_mem_cons.2 ⟨?_, others⟩⟩
      · simpa only [Fine, Proc.child, shell] using branch
      · simpa only [Fine, shell] using after
  | wait shell head zombie =>
    obtain ⟨here, others⟩ := Multiset.forall_mem_cons.1 fine
    have ok := head ▸ here.ok shell
    cases ok with
    | wait safe after =>
      refine Multiset.forall_mem_cons.2 ⟨?_, (Multiset.forall_mem_cons.1 others).2⟩
      simpa only [Fine, shell] using after
  | program program own =>
    obtain ⟨here, others⟩ := Multiset.forall_mem_cons.1 fine
    obtain ⟨ended, safe⟩ := here.program program
    refine Multiset.forall_mem_cons.2 ⟨?_, others⟩
    simp only [Fine, program]
    refine ⟨ended, fun s π open_ => ?_⟩
    rcases own _ open_ with old | ⟨k, foreign⟩
    · exact safe s π old
    · cases s <;> cases foreign
  | programFork program =>
    obtain ⟨here, others⟩ := Multiset.forall_mem_cons.1 fine
    exact Multiset.forall_mem_cons.2 ⟨here, fine⟩
  | reap => exact (Multiset.forall_mem_cons.1 fine).2
  | exit | programExit => exact fine_exit (Multiset.forall_mem_cons.1 fine).2

theorem inv_start (pid parent n : Nat) : Inv t (.start pid parent n t) := by
  constructor
  · intro q mem
    obtain rfl := Multiset.mem_singleton.1 mem
    have here : Node t [] t .given := .root
    exact .run (safe_table here) here
  · simpa [Run.labels, Run.start, Stmt.labels, call] using labels_nodup

theorem inv_of_reaches {pid parent n : Nat} (h : Reaches (.start pid parent n t) w) : Inv t w := by
  induction h with
  | refl => exact inv_start pid parent n
  | tail _ step ih => exact ⟨step.fine ih.fine, Multiset.nodup_of_le (step.labels_le ih.fine) ih.once⟩

theorem Inv.not_pending (h : Inv t w) {π : Path} (mem : q ∈ w.procs)
    (started : ∀ s : Side, (s.turn :: π, 58) ∈ w.done) (waits : (π, 119) ∈ w.done) : ¬Pending π q.code := by
  have apart {x : Label} : x ∈ w.done → x ∉ (w.procs.map fun q => future q.code).sum :=
    Multiset.disjoint_left.1 (Multiset.disjoint_of_nodup_add h.once)
  have later {x : Label} (h : x ∈ future q.code) : x ∈ (w.procs.map fun q => future q.code).sum := by
    obtain ⟨rest, procs⟩ := Multiset.exists_cons_of_mem mem
    rw [procs, Multiset.map_cons, Multiset.sum_cons]
    exact Multiset.mem_add.2 (.inl h)
  rintro (⟨s, coming⟩ | coming)
  · exact apart (started s) (later coming)
  · exact apart waits (later coming)

theorem table_get {e : Env σ} {fd : Nat} (std : fd < 3) : (table e)[fd]? = some (some (e fd)) := by
  match fd, std with
  | 0, _ | 1, _ | 2, _ => rfl

theorem Fine.running (h : Fine t q) (shell : q.mode = .shell) {ρ : Path} {c : Cmd σ}
    (head : q.code = call ρ c :: code) : ∃ e, Node t ρ c e ∧ q.fds = table e := by
  have ok := h.ok shell
  rw [head] at ok
  generalize q.fds = fds at ok ⊢
  cases ok with
  | @run _ _ e _ _ safe here => exact ⟨e, here, rfl⟩

theorem Fine.executing (h : Fine t q) (shell : q.mode = .shell) {label : Label} {argv : List σ}
    (head : q.code = ⟨label, .exec argv⟩ :: code) : ∃ e, Node t q.node (.exec argv) e ∧ q.fds = table e := by
  have ok := h.ok shell
  rw [head] at ok
  generalize q.fds = fds at ok ⊢
  cases ok with
  | @exec _ _ e _ _ here => exact ⟨e, here, rfl⟩

theorem fd_lt (s : Side) : s.fd < 3 := by
  cases s <;> decide

end Runs

/-- The descriptors of the processes of a command. -/
structure Wired (t : Cmd σ) (w : Run σ) : Prop where
  /-- A program is executed with the descriptors 0, 1 and 2. In a side of a pipe its end is one of them, if it has not
  been replaced. -/
  exec : ∀ q ∈ w.procs, q.mode = .shell → ∀ label argv code, q.code = ⟨label, .exec argv⟩ :: code →
    ∃ e, Node t q.node (.exec argv) e ∧ q.fds = table e ∧
      ∀ (s : Side) (π : Path), s.turn :: π <:+ q.node →
        q.fds[s.fd]? = some (some (s.pipeEnd π)) ∨ Replaced t s.fd (s.turn :: π) q.node
  /-- A side of a pipe is run with its end. -/
  side : ∀ q ∈ w.procs, q.mode = .shell → ∀ (s : Side) π c code, q.code = call (s.turn :: π) c :: code →
    q.fds[s.fd]? = some (some (s.pipeEnd π))
  redir : ∀ q ∈ w.procs, q.mode = .shell → ∀ π c code, q.code = call (.redir :: π) c :: code →
    ∃ file mode fd e, Node t π (.redir c file mode fd) e ∧ q.fds[fd]? = some (some (.file π file mode))
  /-- Both sides have been started and the process of the node has closed the pipe. -/
  ends : ∀ π : Path, (∀ s : Side, (s.turn :: π, 58) ∈ w.done) → (π, 119) ∈ w.done →
    ∀ s : Side, ∀ q ∈ w.procs, some (s.pipeEnd π) ∈ q.fds → s.turn :: π <:+ q.node
  /-- Nobody can write to the pipe any more. -/
  eof : ∀ π : Path, (∀ s : Side, (s.turn :: π, 58) ∈ w.done) → (π, 119) ∈ w.done →
    (∀ q ∈ w.procs, .left :: π <:+ q.node → q.mode = .zombie) → ∀ q ∈ w.procs, some (.writeEnd π) ∉ q.fds

theorem runcmd_wires {t : Cmd σ} {pid parent n : Nat} {w : Run σ} (run : Reaches (.start pid parent n t) w) :
    Wired t w := by
  have inv := inv_of_reaches run
  have ends (π : Path) (started : ∀ s : Side, (s.turn :: π, 58) ∈ w.done) (waits : (π, 119) ∈ w.done)
      (s : Side) (q) (mem : q ∈ w.procs) (open_ : some (s.pipeEnd π) ∈ q.fds) : s.turn :: π <:+ q.node :=
    ((inv.fine q mem).safe s π open_).resolve_right (inv.not_pending mem started waits)
  constructor
  case exec =>
    intro q mem shell label argv code head
    obtain ⟨e, here, fds⟩ := (inv.fine q mem).executing shell head
    refine ⟨e, here, fds, fun s π inside => ?_⟩
    rw [fds, table_get (fd_lt s)]
    exact (here.wired inside).imp_left fun same => by rw [same]
  case side =>
    intro q mem shell s π c code head
    obtain ⟨e, here, fds⟩ := (inv.fine q mem).running shell head
    rw [fds, table_get (fd_lt s), (here.wired List.suffix_rfl).resolve_right not_replaced_self]
  case redir =>
    intro q mem shell π c code head
    obtain ⟨e, here, fds⟩ := (inv.fine q mem).running shell head
    obtain ⟨file, mode, fd, e', node, std, same⟩ := here.redirected
    refine ⟨file, mode, fd, e', node, ?_⟩
    rw [fds, table_get std, same]
  case ends => exact ends
  case eof =>
    intro π started waits exited q mem open_
    have zombie := exited q mem (ends π started waits .left q mem open_)
    rw [((inv.fine q mem).zombie zombie).2] at open_
    cases open_

theorem Step.leads {w w' : Run σ} {P : Run σ → Prop} (step : Step w w') (h : ∃ x, Reaches w' x ∧ P x) :
    ∃ x, Reaches w x ∧ P x := by
  obtain ⟨x, run, holds⟩ := h
  exact ⟨x, .head step run, holds⟩

/-- The left side of a pipe of two programs is started, then the right side, then the first `wait` is reached. -/
theorem runcmd_wires_pipe :
    ∃ w : Run Nat, Reaches (.start 2 1 3 (.pipe (.exec [0]) (.exec [1]))) w ∧
      ((∀ s : Side, ([s.turn], 58) ∈ w.done) ∧ ([], 119) ∈ w.done) ∧ Wired (.pipe (.exec [0]) (.exec [1])) w := by
  obtain ⟨w, run, reached⟩ : ∃ w : Run Nat, Reaches (.start 2 1 3 (.pipe (.exec [0]) (.exec [1]))) w ∧
      ((∀ s : Side, ([s.turn], 58) ∈ w.done) ∧ ([], 119) ∈ w.done) := by
    refine Step.leads (.next rfl rfl rfl) (Step.leads (.next rfl rfl rfl) (Step.leads (.fork rfl rfl) ?_))
    refine Step.leads (.next rfl rfl rfl) (Step.leads (.next rfl rfl rfl) (Step.leads (.next rfl rfl rfl) ?_))
    refine Step.leads (.next rfl rfl rfl) (Step.leads (.next rfl rfl rfl) ?_)
    rw [Multiset.cons_swap]
    refine Step.leads (.fork rfl rfl) ?_
    refine Step.leads (.next rfl rfl rfl) (Step.leads (.next rfl rfl rfl) (Step.leads (.next rfl rfl rfl) ?_))
    refine Step.leads (.next rfl rfl rfl) (Step.leads (.next rfl rfl rfl) ?_)
    rw [Multiset.cons_swap]
    refine Step.leads (.next rfl rfl rfl) (Step.leads (.next rfl rfl rfl) ⟨_, .refl, fun s => ?_, by simp⟩)
    cases s <;> simp [Side.turn, call]
  exact ⟨w, run, reached, runcmd_wires run⟩

end Xv6.Shell
