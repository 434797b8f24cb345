import Mathlib

/-!
# Regular expressions (`match`, `matchhere` and `matchstar` of `user/grep.c`)

A C string is the list of its bytes before the NUL: `*text != '\0'` says that the list is not empty,
`text++` takes its tail.
-/

namespace Xv6.Grep

/-- `'^'` -/
abbrev caret : UInt8 := 94
/-- `'*'` -/
abbrev star : UInt8 := 42
/-- `'$'` -/
abbrev dollar : UInt8 := 36
/-- `'.'` -/
abbrev dot : UInt8 := 46

/-! ## The code -/

mutual

/-- search for re at beginning of text -/
def matchhere (re text : List UInt8) : Bool :=
  match re with
  | [] => true
  | c :: re =>
    if re.head? = some star then matchstar c re.tail text
    else if c = dollar ∧ re = [] then text.isEmpty
    else
      match text with
      | [] => false
      | t :: text => if c = dot ∨ c = t then matchhere re text else false
termination_by (re.length, text.length)
decreasing_by
  · have pos : 0 < re.length := List.length_pos_of_mem (List.mem_of_mem_head? ‹_›)
    simp only [List.length_tail, List.length_cons]
    exact Prod.Lex.left _ _ (by omega)
  · exact Prod.Lex.left _ _ (Nat.lt_succ_self _)

/-- search for c*re at beginning of text -/
def matchstar (c : UInt8) (re text : List UInt8) : Bool :=
  -- a * matches zero or more instances
  if matchhere re text then true
  else
    match text with
    | [] => false
    | t :: text => if t = c ∨ c = dot then matchstar c re text else false
termination_by (re.length + 1, text.length)
decreasing_by
  · exact Prod.Lex.left _ _ (Nat.lt_succ_self _)
  · exact Prod.Lex.right _ (Nat.lt_succ_self _)

end

/-- The loop of `match`. -/
def matchFrom (re : List UInt8) : List UInt8 → Bool
  -- must look at empty string
  | [] => matchhere re []
  | t :: text => if matchhere re (t :: text) then true else matchFrom re text

/-- `match(re, text)` -/
def matchText (re text : List UInt8) : Bool :=
  if re.head? = some caret then matchhere re.tail text else matchFrom re text

/-! ## What a pattern means -/

/-- An item of a pattern: a character that may be repeated, the end of the text, any character, or a
literal one. -/
inductive Item where
  | many (c : UInt8)
  | eol
  | any
  | lit (c : UInt8)
deriving DecidableEq

/-- The items of a pattern, read from left to right. -/
def items : List UInt8 → List Item
  | [] => []
  | [c] => if c = dollar then [.eol] else if c = dot then [.any] else [.lit c]
  | c :: d :: re =>
    if d = star then .many c :: items re
    else if c = dot then .any :: items (d :: re)
    else .lit c :: items (d :: re)

/-- The pieces of text that an item matches. -/
def Item.Matches : Item → List UInt8 → Prop
  | .many c, piece => ∀ t ∈ piece, t = c ∨ c = dot
  | .eol, piece => piece = []
  | .any, piece => ∃ t, piece = [t]
  | .lit c, piece => piece = [c]

/-- The final item is `'$'`. -/
def AtEnd (is : List Item) : Prop := is.getLast? = some .eol

/-- The text begins with consecutive pieces that match the items in order. -/
def Begins (is : List Item) (text : List UInt8) : Prop :=
  ∃ pieces rest, text = pieces.flatten ++ rest ∧ List.Forall₂ Item.Matches is pieces ∧ (AtEnd is → rest = [])

/-- The text has a substring that splits into consecutive pieces matching the items of the pattern: a
prefix when the pattern begins with `'^'`, a suffix when its final item is `'$'`. -/
def Occurs (re text : List UInt8) : Prop :=
  if re.head? = some caret then Begins (items re.tail) text
  else ∃ before after, text = before ++ after ∧ Begins (items re) after

section Items

variable {i : Item} {is : List Item} {c : UInt8} {text : List UInt8}

theorem atEnd_cons (h : i ≠ .eol) : AtEnd (i :: is) ↔ AtEnd is := by
  cases is with
  | nil => simpa [AtEnd] using h
  | cons j is => rw [AtEnd, AtEnd, List.getLast?_cons_cons]

theorem begins_nil : Begins [] text := by
  refine ⟨[], text, rfl, .nil, ?_⟩
  intro last
  cases last

theorem begins_eol : Begins [.eol] text ↔ text = [] := by
  constructor
  · rintro ⟨pieces, rest, rfl, pieceOf, last⟩
    cases pieceOf with
    | cons first none =>
      cases none
      rw [last rfl, List.append_nil, List.flatten_singleton]
      exact first
  · rintro rfl
    exact ⟨[[]], [], rfl, .cons rfl .nil, fun _ => rfl⟩

/-- The first piece and the rest. -/
theorem begins_cons (h : i ≠ .eol) :
    Begins (i :: is) text ↔ ∃ piece after, text = piece ++ after ∧ i.Matches piece ∧ Begins is after := by
  constructor
  · rintro ⟨pieces, rest, rfl, pieceOf, last⟩
    cases pieceOf with
    | @cons _ piece _ pieces first others =>
      rw [List.flatten_cons, List.append_assoc]
      exact ⟨piece, pieces.flatten ++ rest, rfl, first, pieces, rest, rfl, others, fun e => last ((atEnd_cons h).mpr e)⟩
  · rintro ⟨piece, after, rfl, first, pieces, rest, rfl, others, last⟩
    refine ⟨piece :: pieces, rest, ?_, .cons first others, fun e => last ((atEnd_cons h).mp e)⟩
    rw [List.flatten_cons, List.append_assoc]

/-- A repeated character matches nothing, or one character and again. -/
theorem begins_many : Begins (.many c :: is) text ↔
    Begins is text ∨ ∃ t after, text = t :: after ∧ (t = c ∨ c = dot) ∧ Begins (.many c :: is) after := by
  have many : Item.many c ≠ .eol := nofun
  simp only [begins_cons many]
  constructor
  · rintro ⟨piece, after, rfl, all, rest⟩
    cases piece with
    | nil => exact Or.inl rest
    | cons t piece =>
      refine Or.inr ⟨t, piece ++ after, rfl, all t (List.mem_cons_self ..), piece, after, rfl, ?_, rest⟩
      exact fun u hu => all u (List.mem_cons_of_mem _ hu)
  · rintro (rest | ⟨t, after, rfl, ok, piece, after, rfl, all, rest⟩)
    · exact ⟨[], text, rfl, nofun, rest⟩
    · refine ⟨t :: piece, after, rfl, ?_, rest⟩
      intro u hu
      rcases List.mem_cons.mp hu with rfl | hu
      · exact ok
      · exact all u hu

/-- An item for one character. -/
theorem begins_one (h : i ≠ .eol) (one : ∀ piece, i.Matches piece ↔ ∃ t, piece = [t] ∧ (c = dot ∨ c = t)) :
    Begins (i :: is) text ↔ ∃ t after, text = t :: after ∧ (c = dot ∨ c = t) ∧ Begins is after := by
  rw [begins_cons h]
  constructor
  · rintro ⟨piece, after, rfl, first, rest⟩
    obtain ⟨t, rfl, ok⟩ := (one piece).mp first
    exact ⟨t, after, rfl, ok, rest⟩
  · rintro ⟨t, after, rfl, ok, rest⟩
    exact ⟨[t], after, rfl, (one [t]).mpr ⟨t, rfl, ok⟩, rest⟩

end Items

/-! ## The matcher is right -/

/-- The item of a character that is neither repeated nor a final `'$'`. -/
def one (c : UInt8) : Item := if c = dot then .any else .lit c

theorem begins_plain {c : UInt8} {is : List Item} {text : List UInt8} : Begins (one c :: is) text ↔
    ∃ t after, text = t :: after ∧ (c = dot ∨ c = t) ∧ Begins is after := by
  by_cases e : c = dot
  · refine begins_one (by simp [one, e]) fun piece => ?_
    simp [one, e, Item.Matches]
  · refine begins_one (by simp [one, e]) fun piece => ?_
    simp [one, e, Item.Matches]

theorem items_plain {c : UInt8} {re : List UInt8} (notStar : re.head? ≠ some star)
    (notEnd : ¬ (c = dollar ∧ re = [])) : items (c :: re) = one c :: items re := by
  cases re with
  | nil =>
    have : c ≠ dollar := fun e => notEnd ⟨e, rfl⟩
    rw [one, items, items, if_neg this]
    split <;> rfl
  | cons d re =>
    have : d ≠ star := fun e => notStar (by rw [e]; rfl)
    rw [items, if_neg this, one]
    split <;> rfl

theorem items_many {c : UInt8} {re : List UInt8} (h : re.head? = some star) :
    items (c :: re) = .many c :: items re.tail := by
  cases re with
  | nil => cases h
  | cons d re =>
    obtain rfl : d = star := Option.some.inj h
    rw [items, if_pos rfl, List.tail_cons]

theorem exists_cons {t : UInt8} {text : List UInt8} {P : UInt8 → List UInt8 → Prop} :
    (∃ u after, t :: text = u :: after ∧ P u after) ↔ P t text := by
  constructor
  · rintro ⟨u, after, e, h⟩
    cases e
    exact h
  · intro h
    exact ⟨t, text, rfl, h⟩

theorem matchstar_iff {c : UInt8} {re : List UInt8}
    (here : ∀ text, matchhere re text = true ↔ Begins (items re) text) (text : List UInt8) :
    matchstar c re text = true ↔ Begins (.many c :: items re) text := by
  induction text with
  | nil =>
    rw [matchstar, begins_many, ← here]
    simp
  | cons t text ih =>
    rw [matchstar, begins_many, ← here, exists_cons, ← ih]
    by_cases now : matchhere re (t :: text) = true
    · simp [now]
    · simp [now]

/-- By induction on the length of the pattern; a repeated character is an induction on the text. -/
theorem matchhere_iff (re text : List UInt8) : matchhere re text = true ↔ Begins (items re) text := by
  induction len : re.length using Nat.strongRecOn generalizing re text with
  | ind n ih =>
    subst len
    cases re with
    | nil =>
      rw [matchhere]
      exact iff_of_true rfl begins_nil
    | cons c re =>
      rw [matchhere.eq_def]
      dsimp only
      split_ifs with isStar isEnd
      · rw [items_many isStar]
        refine matchstar_iff (fun text => ih _ ?_ re.tail text rfl) text
        simp only [List.length_tail, List.length_cons]
        omega
      · obtain ⟨rfl, rfl⟩ := isEnd
        rw [List.isEmpty_iff]
        exact begins_eol.symm
      · rw [items_plain isStar isEnd, begins_plain]
        cases text with
        | nil => simp
        | cons t text =>
          rw [exists_cons, ← ih re.length (Nat.lt_succ_self _) re text rfl]
          by_cases ok : c = dot ∨ c = t
          · simp [ok]
          · simp [ok]

theorem matchFrom_iff (re text : List UInt8) :
    matchFrom re text = true ↔ ∃ before after, text = before ++ after ∧ Begins (items re) after := by
  induction text with
  | nil =>
    rw [matchFrom, matchhere_iff]
    constructor
    · exact fun h => ⟨[], [], rfl, h⟩
    · rintro ⟨before, after, e, h⟩
      rwa [(List.append_eq_nil_iff.mp e.symm).2] at h
  | cons t text ih =>
    rw [matchFrom]
    constructor
    · split
      · rename_i now
        exact fun _ => ⟨[], t :: text, rfl, (matchhere_iff _ _).mp now⟩
      · intro later
        obtain ⟨before, after, rfl, h⟩ := ih.mp later
        exact ⟨t :: before, after, rfl, h⟩
    · rintro ⟨before, after, e, h⟩
      cases before with
      | nil =>
        rw [List.nil_append] at e
        rw [e, (matchhere_iff _ _).mpr h, if_pos rfl]
      | cons u before =>
        cases e
        rw [ih.mpr ⟨before, after, rfl, h⟩, ite_self]

/-- `match` finds exactly the texts in which the pattern occurs. -/
theorem match_iff_occurs (re text : List UInt8) : matchText re text = true ↔ Occurs re text := by
  rw [matchText, Occurs]
  split
  · exact matchhere_iff _ _
  · exact matchFrom_iff _ _

end Xv6.Grep
