import Xv6.Shell.Correct

/-!
# What `parsecmd` returns

`nulterminate` ends the strings of the tree in the line itself. A NUL is written only behind a word,
never into one, so every string of the tree is then the word it stands for.
-/

namespace Xv6.Shell

/-- The string that `a.q` points to. -/
def cstring (len : Nat) (buf : List UInt8) (a : Span) : Word := (buf.drop (offset len a.q)).takeWhile (· ≠ 0)

/-- The line with NULs outside its words. -/
structure Kept (line buf : List UInt8) : Prop where
  length : buf.length = line.length + 1
  word : ∀ (i : Nat) (c : UInt8), (line)[i]? = some c → wordChar c = true → buf[i]? = some c

/-- The string is terminated. -/
def Stops (line buf : List UInt8) (a : Span) : Prop := buf[offset line.length a.eq]? = some 0

section Terminate

variable {line buf : List UInt8} {a : Span} {cmd : Cmd Span}

theorem Good.parts (good : Good line a) : ∃ front, line = front ++ (a.text ++ a.eq) ∧
    offset line.length a.q = front.length ∧ offset line.length a.eq = front.length + a.text.length := by
  obtain ⟨front, whole⟩ := good.inside
  rw [good.split] at whole
  refine ⟨front, whole.symm, ?_, ?_⟩
  · rw [offset, good.split, ← whole, List.length_append, Nat.add_sub_cancel]
  · rw [offset, ← whole, List.length_append, List.length_append]
    omega

/-- A string is ended. -/
theorem Kept.set (kept : Kept line buf) (good : Good line a) :
    Kept line (buf.set (offset line.length a.eq) 0) where
  length := by rw [List.length_set, kept.length]
  word i c here word := by
    obtain ⟨front, whole, -, place⟩ := good.parts
    have other : offset line.length a.eq ≠ i := by
      rintro rfl
      rw [place, whole, ← List.append_assoc, List.getElem?_append_right (by simp)] at here
      simp only [List.length_append, Nat.sub_self] at here
      cases hs : a.eq with
      | nil => simp [hs] at here
      | cons d ds =>
        rw [hs] at here
        obtain rfl : d = c := by simpa using here
        rw [good.ends d ds hs] at word
        cases word
    rw [List.getElem?_set_ne other]
    exact kept.word i c here word

theorem Stops.set {b : Span} (stops : Stops line buf b) (kept : Kept line buf) (a : Span) :
    Stops line (buf.set (offset line.length a.eq) 0) b := by
  have inside : offset line.length a.eq ≤ line.length := Nat.sub_le _ _
  by_cases same : offset line.length a.eq = offset line.length b.eq
  · rw [Stops, same, List.getElem?_set_self]
    rw [kept.length, ← same]
    omega
  · rw [Stops, List.getElem?_set_ne same]
    exact stops

theorem stops_set (kept : Kept line buf) (a : Span) : Stops line (buf.set (offset line.length a.eq) 0) a := by
  have inside : offset line.length a.eq ≤ line.length := Nat.sub_le _ _
  rw [Stops, List.getElem?_set_self]
  rw [kept.length]
  omega

/-- What a write of NULs leaves behind. -/
structure Ended (line buf buf' : List UInt8) : Prop where
  kept : Kept line buf'
  stops : ∀ a, Stops line buf a → Stops line buf' a

theorem Ended.trans {buf' buf'' : List UInt8} (first : Ended line buf buf') (second : Ended line buf' buf'') :
    Ended line buf buf'' := ⟨second.kept, fun a h => second.stops a (first.stops a h)⟩

theorem args_ended (kept : Kept line buf) {argv : List Span} (good : ∀ a ∈ argv, Good line a) :
    Ended line buf (argv.foldl (fun buf arg => buf.set (offset line.length arg.eq) 0) buf) ∧
    ∀ a ∈ argv, Stops line (argv.foldl (fun buf arg => buf.set (offset line.length arg.eq) 0) buf) a := by
  induction argv generalizing buf with
  | nil => exact ⟨⟨kept, fun _ h => h⟩, nofun⟩
  | cons a argv ih =>
    have here := good a List.mem_cons_self
    obtain ⟨ended, stops⟩ := ih (kept.set here) fun b hb => good b (List.mem_cons_of_mem a hb)
    refine ⟨⟨ended.kept, fun b h => ended.stops b (h.set kept a)⟩, fun b hb => ?_⟩
    rcases List.mem_cons.mp hb with rfl | hb
    · exact ended.stops b (stops_set kept b)
    · exact stops b hb

theorem nulterminate_ended (kept : Kept line buf) (good : cmd.All (Good line)) :
    Ended line buf (nulterminate line.length cmd buf) ∧ cmd.All (Stops line (nulterminate line.length cmd buf)) := by
  induction cmd generalizing buf with
  | exec argv => exact args_ended kept good
  | redir cmd file mode fd ih =>
    obtain ⟨ended, stops⟩ := ih kept good.1
    refine ⟨⟨ended.kept.set good.2, fun a h => (ended.stops a h).set ended.kept file⟩, ?_, ?_⟩
    · exact stops.mono fun a h => h.set ended.kept file
    · exact stops_set ended.kept file
  | pipe left right ihl ihr | list left right ihl ihr =>
    obtain ⟨ended, stops⟩ := ihl kept good.1
    obtain ⟨ended', stops'⟩ := ihr ended.kept good.2
    exact ⟨ended.trans ended', stops.mono ended'.stops, stops'⟩
  | back cmd ih => exact ih kept good

/-- A terminated word is the string at its start. -/
theorem cstring_eq (nulFree : (0 : UInt8) ∉ line) (kept : Kept line buf) (good : Good line a) (stops : Stops line buf a) :
    cstring line.length buf a = a.text := by
  obtain ⟨front, whole, start, stop⟩ := good.parts
  rw [Stops, stop] at stops
  have nonzero : ∀ c ∈ a.text, decide (c ≠ 0) = true := by
    intro c hc
    rw [decide_eq_true_eq]
    rintro rfl
    exact nulFree (by rw [whole]; simp [hc])
  have chars : (buf.drop front.length).take a.text.length = a.text := by
    refine List.ext_getElem? fun i => ?_
    by_cases inside : i < a.text.length
    · rw [List.getElem?_take_of_lt inside, List.getElem?_drop, List.getElem?_eq_getElem inside]
      refine kept.word _ _ ?_ (good.word _ (List.getElem_mem inside))
      rw [whole, List.getElem?_append_right (by omega), Nat.add_sub_cancel_left, List.getElem?_append_left inside,
        List.getElem?_eq_getElem inside]
    · rw [List.getElem?_eq_none (by rw [List.length_take]; omega), List.getElem?_eq_none (by omega)]
  obtain ⟨lt, nul⟩ := List.getElem?_eq_some_iff.mp stops
  have rest : buf.drop (front.length + a.text.length) = 0 :: buf.drop (front.length + a.text.length + 1) := by
    rw [List.drop_eq_getElem_cons lt, nul]
  rw [cstring, start, ← List.take_append_drop a.text.length (buf.drop front.length), chars, List.drop_drop, rest,
    List.takeWhile_append_of_pos nonzero]
  simp

end Terminate

/-! ## The theorem -/

section Accepts

variable {line : Input}

/-- `parseline` leaves nothing exactly if no token is left. -/
theorem rest_nil_iff (nulFree : (0 : UInt8) ∉ line) {u : Input} (inside : u <:+ line) : skip u = [] ↔ tokens u = [] := by
  rw [← ret_zero_iff]
  have scans := gettoken_scans u
  constructor
  · intro none
    rw [none] at scans
    generalize (gettoken u).ret = ret at scans
    generalize (gettoken u).eq = t at scans
    cases scans
    rfl
  · intro stop
    have ends : (skip u).headD 0 = 0 := by
      by_contra some
      exact ret_ne_zero scans some stop
    cases hs : skip u with
    | nil => rfl
    | cons c cs =>
      rw [hs] at ends
      have mem : (0 : UInt8) ∈ skip u := by
        rw [hs, ← show c = 0 from ends]
        exact List.mem_cons_self
      exact absurd (((skip_suffix u).trans inside).subset mem) nulFree

theorem parsecmd_ok_iff {cmd : Cmd Span} {buf : List UInt8} : parsecmd line = .ok (cmd, buf) ↔
    ∃ u, run (parseline line) = .ok (cmd, u) ∧ skip u = [] ∧ buf = nulterminate line.length cmd (line ++ [0]) := by
  rw [parsecmd, bind_ok_iff]
  constructor
  · rintro ⟨p, parsed, h⟩
    dsimp only at h
    split at h
    · cases h
    · rename_i none
      cases h
      exact ⟨p.rest, run_ok_iff.mpr ⟨p, parsed, rfl, rfl⟩, not_not.mp none, rfl⟩
  · rintro ⟨u, parsed, none, rfl⟩
    obtain ⟨p, ok, rfl, rfl⟩ := run_ok_iff.mp parsed
    exact ⟨p, ok, if_neg (not_not.mpr none)⟩

/-- The strings of the tree are terminated words of the line. -/
theorem parsecmd_words (nulFree : (0 : UInt8) ∉ line) {cmd : Cmd Span} {u : Input}
    (parsed : run (parseline line) = .ok (cmd, u)) :
    cmd.All fun a => Good line a ∧ Stops line (nulterminate line.length cmd (line ++ [0])) a ∧
      cstring line.length (nulterminate line.length cmd (line ++ [0])) a = a.text := by
  have good := (parse_sound.2.2 cmd u parsed).good line List.suffix_rfl
  have kept : Kept line (line ++ [0]) := by
    refine ⟨by simp, fun i c here _ => ?_⟩
    rw [List.getElem?_append_left (List.getElem?_eq_some_iff.mp here).1, here]
  obtain ⟨ended, stops⟩ := nulterminate_ended kept good
  exact (good.and stops).mono fun a h => ⟨h.1, h.2, cstring_eq nulFree ended.kept h.1 h.2⟩

theorem parsecmd_strings (nulFree : (0 : UInt8) ∉ line) {cmd : Cmd Span} {u : Input}
    (parsed : run (parseline line) = .ok (cmd, u)) :
    cmd.map (cstring line.length (nulterminate line.length cmd (line ++ [0]))) = cmd.map Span.text :=
  Cmd.map_congr ((parsecmd_words nulFree parsed).mono fun _ h => h.2.2)

/-- An accepted line is a line of the grammar. -/
theorem parsecmd_derives (nulFree : (0 : UInt8) ∉ line) {cmd : Cmd Span} {u : Input}
    (parsed : run (parseline line) = .ok (cmd, u)) (none : skip u = []) :
    Derives .line (tokens line) (cmd.map Span.text) := by
  obtain ⟨ts, split, derives⟩ := (parse_sound.2.2 cmd u parsed).derives
  rw [(rest_nil_iff nulFree (run_suffix parsed)).mp none, List.append_nil] at split
  rw [split]
  exact derives

/-- A line of the grammar is accepted. -/
theorem parsecmd_of_derives (nulFree : (0 : UInt8) ∉ line) {tree : Cmd Word} (derives : Derives .line (tokens line) tree) :
    ∃ cmd buf, parsecmd line = .ok (cmd, buf) ∧ cmd.map (cstring line.length buf) = tree := by
  obtain ⟨cmd, u, parsed, left, same⟩ := parse_complete derives (List.append_nil _).symm (Or.inl rfl)
  have none := (rest_nil_iff nulFree (run_suffix parsed)).mpr left
  exact ⟨cmd, _, parsecmd_ok_iff.mpr ⟨u, parsed, none, rfl⟩, (parsecmd_strings nulFree parsed).trans same⟩

/-- For every line `parsecmd` returns a tree exactly if the tokens of the line derive one, and it is that tree:
there is only one. -/
theorem parsecmd_accepts (nulFree : (0 : UInt8) ∉ line) :
    (∀ tree, (∃ cmd buf, parsecmd line = .ok (cmd, buf) ∧ cmd.map (cstring line.length buf) = tree) ↔
      Derives .line (tokens line) tree) ∧
    (∀ tree tree', Derives .line (tokens line) tree → Derives .line (tokens line) tree' → tree = tree') := by
  have accepts : ∀ tree, (∃ cmd buf, parsecmd line = .ok (cmd, buf) ∧ cmd.map (cstring line.length buf) = tree) ↔
      Derives .line (tokens line) tree := by
    intro tree
    constructor
    · rintro ⟨cmd, buf, ok, rfl⟩
      obtain ⟨u, parsed, none, rfl⟩ := parsecmd_ok_iff.mp ok
      rw [parsecmd_strings nulFree parsed]
      exact parsecmd_derives nulFree parsed none
    · exact parsecmd_of_derives nulFree
  refine ⟨accepts, fun tree tree' derives derives' => ?_⟩
  obtain ⟨cmd, buf, ok, rfl⟩ := (accepts tree).mpr derives
  obtain ⟨cmd', buf', ok', rfl⟩ := (accepts tree').mpr derives'
  cases ok.symm.trans ok'
  rfl

theorem parsecmd_accepts_background : (0 : UInt8) ∉ chars "(a>b)|c&" ∧
    ∃ cmd buf, parsecmd (chars "(a>b)|c&") = .ok (cmd, buf) ∧ cmd.map (cstring (chars "(a>b)|c&").length buf) =
      .back (.pipe (.redir (.exec [chars "a"]) (chars "b") (O_WRONLY ||| O_CREATE ||| O_TRUNC) 1) (.exec [chars "c"])) := by
  have found : tokens (chars "(a>b)|c&") = [.sym (ch '('), .word (chars "a"), .sym (ch '>'), .word (chars "b"), .sym (ch ')'),
      .sym (ch '|'), .word (chars "c"), .sym (ch '&')] := by
    rw [tokens_cons (by decide), tokens_cons (by decide), tokens_cons (by decide), tokens_cons (by decide),
      tokens_cons (by decide), tokens_cons (by decide), tokens_cons (by decide), tokens_cons (by decide),
      tokens_stop (by decide)]
    decide
  have a : Derives .line [.word (chars "a"), .sym (ch '>'), .word (chars "b")]
      (.redir (.exec [chars "a"]) (chars "b") (O_WRONLY ||| O_CREATE ||| O_TRUNC) 1) :=
    .line (.one (.simple [] [⟨chars "a", [⟨.gt, chars "b"⟩]⟩] (by decide))) 0
  have c : Derives .pipe [.word (chars "c")] (.exec [chars "c"]) := .one (.simple [] [⟨chars "c", []⟩] (by decide))
  have derives := Derives.line (.pipe (.block a []) c) 1
  have nulFree : (0 : UInt8) ∉ chars "(a>b)|c&" := by decide
  exact ⟨nulFree, ((parsecmd_accepts nulFree).1 _).mpr (by rw [found]; exact derives)⟩

/-! ## Words in place -/

/-- Every `argv` of a tree. -/
def Cmd.Argvs {σ : Type} (P : List σ → Prop) : Cmd σ → Prop
  | .exec argv => P argv
  | .redir cmd _ _ _ => cmd.Argvs P
  | .pipe left right => left.Argvs P ∧ right.Argvs P
  | .list left right => left.Argvs P ∧ right.Argvs P
  | .back cmd => cmd.Argvs P

theorem Cmd.argvs_map {σ τ : Type} {f : σ → τ} {P : List τ → Prop} {c : Cmd σ} :
    (c.map f).Argvs P ↔ c.Argvs fun argv => P (argv.map f) := by
  induction c with
  | exec argv => exact Iff.rfl
  | redir cmd file mode fd ih => exact ih
  | pipe left right ihl ihr | list left right ihl ihr => exact and_congr ihl ihr
  | back cmd ih => exact ih

theorem Cmd.Argvs.wraps {P : List Word → Prop} {c : Cmd Word} (h : c.Argvs P) (rs : List Redir) :
    (rs.foldl Redir.wrap c).Argvs P := by
  induction rs generalizing c with
  | nil => exact h
  | cons r rs ih =>
    obtain ⟨op, file⟩ := r
    apply ih
    cases op <;> exact h

theorem Cmd.Argvs.backs {P : List Word → Prop} {c : Cmd Word} (h : c.Argvs P) (k : Nat) : (Cmd.back^[k] c).Argvs P := by
  induction k generalizing c with
  | zero => exact h
  | succ k ih => exact ih (c := c.back) h

theorem Derives.argvs {nt : Nonterminal} {ts : List Tok} {c : Cmd Word} (d : Derives nt ts c) :
    c.Argvs fun argv => argv.length < MAXARGS := by
  induction d with
  | line first k ih => exact ih.backs k
  | seq first k second ih ih' => exact ⟨ih.backs k, ih'⟩
  | one only ih => exact ih
  | pipe first second ih ih' => exact ⟨ih, ih'⟩
  | block inner rs ih => exact ih.wraps rs
  | simple rs args few =>
    apply Cmd.Argvs.wraps
    rw [Cmd.Argvs, List.length_map]
    exact few

/-- In the line that `parsecmd` leaves behind, every string of the tree is a word of the line as it was: it
stands between the pointers `q` and `eq`, which delimit a maximal run of word characters, and these are
the words of the tokens in the order of the grammar. Every `argv` has room for its null pointer. -/
theorem words_end_in_place (nulFree : (0 : UInt8) ∉ line) {cmd : Cmd Span} {buf : List UInt8}
    (ok : parsecmd line = .ok (cmd, buf)) :
    (cmd.All fun a => Good line a ∧ Stops line buf a ∧ cstring line.length buf a = a.text) ∧
      Derives .line (tokens line) (cmd.map Span.text) ∧ cmd.Argvs fun argv => argv.length < MAXARGS := by
  obtain ⟨u, parsed, none, rfl⟩ := parsecmd_ok_iff.mp ok
  have derives := parsecmd_derives nulFree parsed none
  refine ⟨parsecmd_words nulFree parsed, derives, ?_⟩
  have short := Cmd.argvs_map.mp derives.argvs
  simpa only [List.length_map] using short

theorem words_end_in_place_packed : (0 : UInt8) ∉ chars "a<b|c" ∧
    ∃ cmd buf, parsecmd (chars "a<b|c") = .ok (cmd, buf) ∧
      cmd.map (cstring (chars "a<b|c").length buf) = .pipe (.redir (.exec [chars "a"]) (chars "b") O_RDONLY 0) (.exec [chars "c"]) ∧
      (cmd.All fun a => Stops (chars "a<b|c") buf a) ∧ cmd.Argvs fun argv => argv.length < MAXARGS := by
  have found : tokens (chars "a<b|c") =
      [.word (chars "a"), .sym (ch '<'), .word (chars "b"), .sym (ch '|'), .word (chars "c")] := by
    rw [tokens_cons (by decide), tokens_cons (by decide), tokens_cons (by decide), tokens_cons (by decide),
      tokens_cons (by decide), tokens_stop (by decide)]
    decide
  have c : Derives .pipe [.word (chars "c")] (.exec [chars "c"]) := .one (.simple [] [⟨chars "c", []⟩] (by decide))
  have derives := Derives.line (.pipe (.simple [] [⟨chars "a", [⟨.lt, chars "b"⟩]⟩] (by decide)) c) 0
  have nulFree : (0 : UInt8) ∉ chars "a<b|c" := by decide
  obtain ⟨cmd, buf, ok, tree⟩ := parsecmd_of_derives nulFree (by rw [found]; exact derives)
  obtain ⟨words, -, short⟩ := words_end_in_place nulFree ok
  exact ⟨nulFree, cmd, buf, ok, tree, words.mono fun a h => h.2.1, short⟩

end Accepts

end Xv6.Shell
