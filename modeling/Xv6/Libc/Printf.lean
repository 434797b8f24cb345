import Mathlib

/-!
# The two versions of `printf` (`kernel/printf.c`, `user/printf.c`)

A format is the list of its bytes before the NUL. Arguments are taken in turn, as `va_arg` takes them;
an argument of another kind than asked for has no meaning. The result is what is given to `consputc`
and to `putc`.
-/

namespace Xv6.Printf

/-! ## The code -/

def ch (c : Char) : UInt8 := c.toUInt8

def chars (s : String) : List UInt8 := s.toList.map Char.toUInt8

/-- `'%'` -/
abbrev percent : UInt8 := 37

/-- An `int`, a `uint64`, or a string, which may be null. -/
inductive Arg where
  | int (x : BitVec 32)
  | long (x : BitVec 64)
  | str (s : Option (List UInt8))
deriving DecidableEq

/-- `va_arg(ap, int)` -/
def vaInt : List Arg → Option (BitVec 32 × List Arg)
  | .int x :: args => some (x, args)
  | _ => none

/-- `va_arg(ap, uint64)` -/
def vaLong : List Arg → Option (BitVec 64 × List Arg)
  | .long x :: args => some (x, args)
  | _ => none

/-- `va_arg(ap, char*)`; null stands for `"(null)"`. -/
def vaStr : List Arg → Option (List UInt8 × List Arg)
  | .str s :: args => some (s.getD (chars "(null)"), args)
  | _ => none

/-- `do { buf[i++] = digits[x % base]; } while((x /= base) != 0);` A `uint` has at most 32 digits. -/
def digitLoop (digits : List UInt8) (base : Nat) : Nat → Nat → List UInt8
  | 0, _ => []
  | k + 1, x => digits.getD (x % base) 0 :: if x / base ≠ 0 then digitLoop digits base k (x / base) else []

/-- The loop of `printptr`. -/
def ptrLoop (digits : List UInt8) : Nat → BitVec 64 → List UInt8
  | 0, _ => []
  | k + 1, x => digits.getD (x >>> (64 - 4)).toNat 0 :: ptrLoop digits k (x <<< 4)

namespace Kernel

def digits : List UInt8 := chars "0123456789abcdef"

def printint (xx : BitVec 32) (base : Nat) (sign : Bool) : List UInt8 :=
  -- sign = xx < 0
  let sign := sign && decide (xx.toInt < 0)
  let x := if sign then (-xx).toNat else xx.toNat
  let buf := digitLoop digits base 32 x
  let buf := if sign then buf ++ [ch '-'] else buf
  buf.reverse

def printptr (x : BitVec 64) : List UInt8 := chars "0x" ++ ptrLoop digits 16 x

/-- Print to the console. only understands %d, %x, %p, %s. -/
def printf : List UInt8 → List Arg → Option (List UInt8)
  | [], _ => some []
  | c :: fmt, args =>
    if c ≠ percent then do
      let out ← printf fmt args
      return c :: out
    else
      match fmt with
      | [] => some []
      | c :: fmt =>
        if c = ch 'd' then do
          let (x, args) ← vaInt args
          let out ← printf fmt args
          return printint x 10 true ++ out
        else if c = ch 'x' then do
          let (x, args) ← vaInt args
          let out ← printf fmt args
          return printint x 16 true ++ out
        else if c = ch 'p' then do
          let (x, args) ← vaLong args
          let out ← printf fmt args
          return printptr x ++ out
        else if c = ch 's' then do
          let (s, args) ← vaStr args
          let out ← printf fmt args
          return s ++ out
        else if c = percent then do
          let out ← printf fmt args
          return percent :: out
        else do
          -- Print unknown % sequence to draw attention.
          let out ← printf fmt args
          return percent :: c :: out

end Kernel

namespace User

def digits : List UInt8 := chars "0123456789ABCDEF"

def printint (xx : BitVec 32) (base : Nat) (sgn : Bool) : List UInt8 :=
  let neg := sgn && decide (xx.toInt < 0)
  let x := if neg then (-xx).toNat else xx.toNat
  let buf := digitLoop digits base 32 x
  let buf := if neg then buf ++ [ch '-'] else buf
  buf.reverse

def printptr (x : BitVec 64) : List UInt8 := chars "0x" ++ ptrLoop digits 16 x

/-- The loop of `vprintf`. Only understands %d, %x, %p, %s. -/
def vprintfFrom (state : UInt8) : List UInt8 → List Arg → Option (List UInt8)
  | [], _ => some []
  | c :: fmt, args =>
    if state = 0 then
      if c = percent then vprintfFrom percent fmt args
      else do
        let out ← vprintfFrom 0 fmt args
        return c :: out
    else if state = percent then
      if c = ch 'd' then do
        let (x, args) ← vaInt args
        let out ← vprintfFrom 0 fmt args
        return printint x 10 true ++ out
      else if c = ch 'l' then do
        let (x, args) ← vaLong args
        let out ← vprintfFrom 0 fmt args
        return printint (x.setWidth 32) 10 false ++ out
      else if c = ch 'x' then do
        let (x, args) ← vaInt args
        let out ← vprintfFrom 0 fmt args
        return printint x 16 false ++ out
      else if c = ch 'p' then do
        let (x, args) ← vaLong args
        let out ← vprintfFrom 0 fmt args
        return printptr x ++ out
      else if c = ch 's' then do
        let (s, args) ← vaStr args
        let out ← vprintfFrom 0 fmt args
        return s ++ out
      else if c = ch 'c' then do
        let (x, args) ← vaInt args
        let out ← vprintfFrom 0 fmt args
        return UInt8.ofNat x.toNat :: out
      else if c = percent then do
        let out ← vprintfFrom 0 fmt args
        return c :: out
      else do
        -- Unknown % sequence. Print it to draw attention.
        let out ← vprintfFrom 0 fmt args
        return percent :: c :: out
    else vprintfFrom state fmt args

def vprintf (fmt : List UInt8) (args : List Arg) : Option (List UInt8) := vprintfFrom 0 fmt args

end User

/-! ## Numerals -/

/-- The numeral of a number, in lower case. -/
def numeral (base n : Nat) : List UInt8 := (Nat.toDigits base n).map Char.toUInt8

/-- The decimal numeral of an integer. -/
def decimal (z : Int) : List UInt8 := if z < 0 then ch '-' :: numeral 10 z.natAbs else numeral 10 z.natAbs

/-- The same character, or a hexadecimal digit in lower case and in upper case. -/
def SameDigit (a b : UInt8) : Prop := a = b ∨ a ∈ chars "abcdef" ∧ b.toNat + 32 = a.toNat

instance (a b : UInt8) : Decidable (SameDigit a b) :=
  inferInstanceAs (Decidable (a = b ∨ a ∈ chars "abcdef" ∧ b.toNat + 32 = a.toNat))

/-- The text that a format and its arguments stand for, with hexadecimal digits in lower case. The
arguments of `%x` are as `ok` says; `%l` and `%c` are not known to both versions. -/
inductive Prints (ok : BitVec 32 → Prop) : List UInt8 → List Arg → List UInt8 → Prop where
  | nil {args : List Arg} : Prints ok [] args []
  | text {c : UInt8} {fmt out : List UInt8} {args : List Arg} (plain : c ≠ percent)
      (rest : Prints ok fmt args out) : Prints ok (c :: fmt) args (c :: out)
  | last {args : List Arg} : Prints ok [percent] args []
  | dec {x : BitVec 32} {fmt out : List UInt8} {args : List Arg} (rest : Prints ok fmt args out) :
      Prints ok (percent :: ch 'd' :: fmt) (.int x :: args) (decimal x.toInt ++ out)
  | hex {x : BitVec 32} {fmt out : List UInt8} {args : List Arg} (fine : ok x) (rest : Prints ok fmt args out) :
      Prints ok (percent :: ch 'x' :: fmt) (.int x :: args) (numeral 16 x.toNat ++ out)
  | ptr {x : BitVec 64} {fmt out : List UInt8} {args : List Arg} (rest : Prints ok fmt args out) :
      Prints ok (percent :: ch 'p' :: fmt) (.long x :: args) (Kernel.printptr x ++ out)
  | str {s : Option (List UInt8)} {fmt out : List UInt8} {args : List Arg} (rest : Prints ok fmt args out) :
      Prints ok (percent :: ch 's' :: fmt) (.str s :: args) (s.getD (chars "(null)") ++ out)
  | percent {fmt out : List UInt8} {args : List Arg} (rest : Prints ok fmt args out) :
      Prints ok (percent :: percent :: fmt) args (percent :: out)
  | unknown {c : UInt8} {fmt out : List UInt8} {args : List Arg} (other : c ∉ percent :: chars "dxpslc")
      (rest : Prints ok fmt args out) : Prints ok (percent :: c :: fmt) args (percent :: c :: out)

theorem digit_eq {d : Nat} (h : d < 16) : Kernel.digits.getD d 0 = (Nat.digitChar d).toUInt8 := by
  interval_cases d <;> decide

theorem digitLoop_numeral {base k x : Nat} (low : 1 < base) (high : base ≤ 16) (pos : 0 < k)
    (small : x < base ^ k) : (digitLoop Kernel.digits base k x).reverse = numeral base x := by
  induction k generalizing x with
  | zero => exact absurd pos (Nat.lt_irrefl 0)
  | succ k ih =>
    have digit : x % base < base := Nat.mod_lt _ (by omega)
    have last : Nat.toDigits base (x % base) = [(x % base).digitChar] := Nat.toDigits_of_lt_base digit
    rw [digitLoop, digit_eq (by omega), List.reverse_cons]
    split
    · rename_i more
      have less : x / base < base ^ k := by
        rw [Nat.div_lt_iff_lt_mul (by omega), ← Nat.pow_succ]
        exact small
      have pos : 0 < k := by
        rcases Nat.eq_zero_or_pos k with rfl | pos
        · exact absurd (Nat.lt_one_iff.mp less) more
        · exact pos
      have whole : Nat.toDigits base x = Nat.toDigits base (x / base) ++ [(x % base).digitChar] := by
        rw [← last, Nat.toDigits_append_toDigits low (Nat.pos_of_ne_zero more) digit, Nat.div_add_mod]
      rw [ih pos less, numeral, numeral, whole, List.map_append, List.map_singleton]
    · rename_i done
      have one : x % base = x := Nat.mod_eq_of_lt ((Nat.div_eq_zero_iff_lt (by omega)).mp (not_not.mp done))
      rw [one] at last ⊢
      rw [List.reverse_nil, List.nil_append, numeral, last, List.map_singleton]

theorem toNat_lt_pow (x : BitVec 32) {base : Nat} (low : 2 ≤ base) : x.toNat < base ^ 32 :=
  lt_of_lt_of_le x.isLt (Nat.pow_le_pow_left low 32)

theorem neg_toNat {x : BitVec 32} (h : x.toInt < 0) : (-x).toNat = x.toInt.natAbs := by
  have lt := x.isLt
  rw [BitVec.toInt_eq_toNat_cond] at h ⊢
  rw [BitVec.toNat_neg]
  split_ifs at h ⊢ <;> omega

theorem nonneg_toNat {x : BitVec 32} (h : ¬ x.toInt < 0) : x.toNat = x.toInt.natAbs := by
  have lt := x.isLt
  rw [BitVec.toInt_eq_toNat_cond] at h ⊢
  split_ifs at h ⊢ <;> omega

/-- The digits of `%d`, also of the most negative `int`. -/
theorem printint_decimal (x : BitVec 32) : Kernel.printint x 10 true = decimal x.toInt := by
  have loop : ∀ y : BitVec 32, (digitLoop Kernel.digits 10 32 y.toNat).reverse = numeral 10 y.toNat := fun y =>
    digitLoop_numeral (by decide) (by decide) (by decide) (toNat_lt_pow y (by decide))
  rw [Kernel.printint, decimal]
  by_cases negative : x.toInt < 0
  · have abs := loop (-x)
    rw [neg_toNat negative] at abs
    simp only [negative, decide_true, Bool.and_self, if_true, neg_toNat negative, List.reverse_append,
      List.reverse_singleton, abs, List.singleton_append]
  · simp [negative, loop, ← nonneg_toNat negative]

/-- The digits of `%x`, for a number that is not negative as an `int`. -/
theorem printint_hex {x : BitVec 32} (h : x.toNat < 2 ^ 31) : Kernel.printint x 16 true = numeral 16 x.toNat := by
  have loop : (digitLoop Kernel.digits 16 32 x.toNat).reverse = numeral 16 x.toNat :=
    digitLoop_numeral (by decide) le_rfl (by decide) (toNat_lt_pow x (by decide))
  have nonneg : ¬ x.toInt < 0 := by
    rw [BitVec.toInt_eq_toNat_cond]
    split_ifs <;> omega
  rw [Kernel.printint]
  simp [nonneg, loop]

/-! ## The two versions agree -/

theorem SameDigit.refl (a : UInt8) : SameDigit a a := Or.inl rfl

theorem forall₂_refl (l : List UInt8) : List.Forall₂ SameDigit l l := List.forall₂_same.mpr fun a _ => .refl a

theorem sameDigit_digits (d : Nat) : SameDigit (Kernel.digits.getD d 0) (User.digits.getD d 0) := by
  by_cases small : d < 16
  · have all : ∀ d, d < 16 → SameDigit (Kernel.digits.getD d 0) (User.digits.getD d 0) := by decide
    exact all d small
  · have kernel : Kernel.digits.length = 16 := by decide
    have user : User.digits.length = 16 := by decide
    rw [List.getD_eq_getElem?_getD, List.getD_eq_getElem?_getD, List.getElem?_eq_none (by omega),
      List.getElem?_eq_none (by omega)]
    exact .refl _

theorem digitLoop_same (base k x : Nat) :
    List.Forall₂ SameDigit (digitLoop Kernel.digits base k x) (digitLoop User.digits base k x) := by
  induction k generalizing x with
  | zero => exact .nil
  | succ k ih =>
    refine .cons (sameDigit_digits _) ?_
    split
    · exact ih _
    · exact .nil

theorem ptrLoop_same (k : Nat) (x : BitVec 64) :
    List.Forall₂ SameDigit (ptrLoop Kernel.digits k x) (ptrLoop User.digits k x) := by
  induction k generalizing x with
  | zero => exact .nil
  | succ k ih => exact .cons (sameDigit_digits _) (ih _)

theorem printint_same (x : BitVec 32) (base : Nat) (sign : Bool) :
    List.Forall₂ SameDigit (Kernel.printint x base sign) (User.printint x base sign) := by
  rw [Kernel.printint, User.printint, List.forall₂_reverse_iff]
  split
  · exact List.rel_append (digitLoop_same _ _ _) (forall₂_refl _)
  · exact digitLoop_same _ _ _

/-- Without a sign to print, it does not matter whether one is asked for. -/
theorem printint_unsigned {x : BitVec 32} (h : x.toNat < 2 ^ 31) (base : Nat) :
    User.printint x base false = User.printint x base true := by
  have nonneg : ¬ x.toInt < 0 := by
    rw [BitVec.toInt_eq_toNat_cond]
    split_ifs <;> omega
  simp [User.printint, nonneg]

theorem printptr_same (x : BitVec 64) : List.Forall₂ SameDigit (Kernel.printptr x) (User.printptr x) :=
  List.rel_append (forall₂_refl _) (ptrLoop_same _ _)

/-- Both versions print `out`, up to the case of hexadecimal digits. -/
def Agree (fmt : List UInt8) (args : List Arg) (out : List UInt8) : Prop :=
  Kernel.printf fmt args = some out ∧
    ∃ out', User.vprintf fmt args = some out' ∧ List.Forall₂ SameDigit out out'

/-- One character or conversion, and the rest of the format. -/
theorem Agree.step {fmt fmt' out a b : List UInt8} {args args' : List Arg} (rest : Agree fmt' args' out)
    (kernel : Kernel.printf fmt args = Kernel.printf fmt' args' >>= fun out => return a ++ out)
    (user : User.vprintf fmt args = User.vprintf fmt' args' >>= fun out => return b ++ out)
    (same : List.Forall₂ SameDigit a b) : Agree fmt args (a ++ out) := by
  obtain ⟨k, out', u, all⟩ := rest
  refine ⟨?_, b ++ out', ?_, List.rel_append same all⟩
  · rw [kernel, k]
    rfl
  · rw [user, u]
    rfl

theorem kernel_text {c : UInt8} {fmt : List UInt8} {args : List Arg} (plain : c ≠ percent) :
    Kernel.printf (c :: fmt) args = Kernel.printf fmt args >>= fun out => return [c] ++ out := by
  rw [Kernel.printf.eq_def]
  exact if_pos plain

theorem user_text {c : UInt8} {fmt : List UInt8} {args : List Arg} (plain : c ≠ percent) :
    User.vprintf (c :: fmt) args = User.vprintf fmt args >>= fun out => return [c] ++ out := if_neg plain

theorem not_mem_conversions {c : UInt8} (other : c ∉ percent :: chars "dxpslc") :
    c ≠ percent ∧ c ≠ ch 'd' ∧ c ≠ ch 'x' ∧ c ≠ ch 'p' ∧ c ≠ ch 's' ∧ c ≠ ch 'l' ∧ c ≠ ch 'c' := by
  simpa [chars, ch] using other

theorem kernel_unknown {c : UInt8} {fmt : List UInt8} {args : List Arg} (other : c ∉ percent :: chars "dxpslc") :
    Kernel.printf (percent :: c :: fmt) args = Kernel.printf fmt args >>= fun out => return [percent, c] ++ out := by
  obtain ⟨p, d, x, p', s, -, -⟩ := not_mem_conversions other
  rw [Kernel.printf, if_neg (not_not.mpr rfl), if_neg d, if_neg x, if_neg p', if_neg s, if_neg p]
  rfl

theorem user_unknown {c : UInt8} {fmt : List UInt8} {args : List Arg} (other : c ∉ percent :: chars "dxpslc") :
    User.vprintf (percent :: c :: fmt) args = User.vprintf fmt args >>= fun out => return [percent, c] ++ out := by
  obtain ⟨p, d, x, p', s, l, c'⟩ := not_mem_conversions other
  rw [User.vprintf, User.vprintfFrom, if_pos rfl, if_pos rfl, User.vprintfFrom, if_neg (by decide), if_pos rfl,
    if_neg d, if_neg l, if_neg x, if_neg p', if_neg s, if_neg c', if_neg p]
  rfl

end Xv6.Printf
