import Mathlib.Data.Int.Order.Basic
import Mathlib.Data.List.TakeWhile
import Prpc.Lib.Decimal

/-!
`std::to_string` and `std::stoi` for an `int`, and the `int` instance of `pico_lexical_cast`, which
parses with `strtol` and then narrows the 64-bit result.
-/

namespace Prpc
open Lib

def int32 (x : Int) : Int := Int.bmod x (2 ^ 32)

def toText (x : Int) : List Char :=
  if x < 0 then '-' :: Nat.toDigits 10 x.natAbs else Nat.toDigits 10 x.natAbs

def isSpace (c : Char) : Bool := c = ' ' || 9 ≤ c.toNat && c.toNat ≤ 13

def takeSign : List Char → Bool × List Char
  | '-' :: rest => (true, rest)
  | '+' :: rest => (false, rest)
  | rest => (false, rest)

structure Strtol where
  value : Int
  pos : List Char
  erange : Bool
  deriving DecidableEq

/-- `strtol` in base ten for a 64-bit `long`; `pos` is what it leaves, all of `s` if there was no
number. -/
def strtol (s : List Char) : Strtol :=
  let (neg, body) := takeSign (s.dropWhile isSpace)
  let digits := body.takeWhile Char.isDigit
  if digits = [] then
    ⟨0, s, false⟩
  else
    let n : Int := Nat.ofDigitChars 10 digits 0
    let x := if neg then -n else n
    ⟨max (-2 ^ 63) (min x (2 ^ 63 - 1)), body.dropWhile Char.isDigit, x < -2 ^ 63 || 2 ^ 63 ≤ x⟩

def stoi (s : List Char) : Option Int :=
  let r := strtol s
  if r.pos = s || r.erange || r.value < -2 ^ 31 || 2 ^ 31 ≤ r.value then none else some r.value

def cStr (s : List Char) : List Char := s.takeWhile (· ≠ Char.ofNat 0)

def picoLexicalCastInt (s : List Char) : Option Int :=
  let s := cStr s
  if s.head?.any isSpace then
    none
  else
    let r := strtol s
    if r.pos = s || r.pos ≠ [] || r.erange then none else some (int32 r.value)

variable {x : Int}

theorem int32_of_range (low : -2 ^ 31 ≤ x) (high : x < 2 ^ 31) : int32 x = x := by
  unfold int32
  apply Int.bmod_eq_of_le <;> omega

variable {c : Char}

theorem toNat_of_isDigit (digit : c.isDigit = true) : 48 ≤ c.toNat ∧ c.toNat ≤ 57 := by
  simp only [Char.isDigit, Bool.and_eq_true, decide_eq_true_eq] at digit
  exact ⟨digit.1, digit.2⟩

theorem ne_of_isDigit {c d : Char} (digit : c.isDigit = true) (other : d.isDigit = false) : c ≠ d := by
  rintro rfl
  rw [digit] at other
  cases other

theorem not_isSpace_of_isDigit (digit : c.isDigit = true) : isSpace c = false := by
  have range := toNat_of_isDigit digit
  simp only [isSpace, ne_of_isDigit digit (by decide : ' '.isDigit = false), decide_false,
    Bool.false_or, Bool.and_eq_false_imp, decide_eq_true_eq, decide_eq_false_iff_not]
  omega

section
variable {digits tail : List Char} (all : ∀ c ∈ digits, c.isDigit = true) (ne : digits ≠ [])

include all ne in
theorem takeSign_digits (tail : List Char) :
    takeSign ((digits ++ tail).dropWhile isSpace) = (false, digits ++ tail) := by
  obtain ⟨d, ds, rfl⟩ := List.exists_cons_of_ne_nil ne
  have head := all d (List.mem_cons_self ..)
  rw [List.cons_append, List.dropWhile_cons, not_isSpace_of_isDigit head, if_neg (by simp), takeSign]
  · rintro rest ⟨⟩
    exact absurd head (by decide)
  · rintro rest ⟨⟩
    exact absurd head (by decide)

variable (stop : tail.head?.any Char.isDigit = false)

include all stop in
theorem takeWhile_digits : (digits ++ tail).takeWhile Char.isDigit = digits := by
  rw [List.takeWhile_append_of_pos all]
  cases tail with
  | nil => simp
  | cons c cs => simp [show c.isDigit = false from stop]

include all stop in
theorem dropWhile_digits : (digits ++ tail).dropWhile Char.isDigit = tail := by
  rw [List.dropWhile_append_of_pos all]
  cases tail with
  | nil => rfl
  | cons c cs => simp [show c.isDigit = false from stop]

include all ne stop in
theorem strtol_digits (small : Nat.ofDigitChars 10 digits 0 < 2 ^ 63) :
    strtol (digits ++ tail) = ⟨Nat.ofDigitChars 10 digits 0, tail, false⟩ := by
  simp only [strtol, takeSign_digits all ne, takeWhile_digits all stop, dropWhile_digits all stop,
    if_neg ne, Bool.false_eq_true, if_false, Strtol.mk.injEq, true_and, Bool.or_eq_false_iff,
    decide_eq_false_iff_not]
  omega

include all ne stop in
theorem strtol_minus (small : Nat.ofDigitChars 10 digits 0 ≤ 2 ^ 63) :
    strtol ('-' :: (digits ++ tail)) = ⟨-Nat.ofDigitChars 10 digits 0, tail, false⟩ := by
  have sign : takeSign (('-' :: (digits ++ tail)).dropWhile isSpace) = (true, digits ++ tail) := rfl
  simp only [strtol, sign, takeWhile_digits all stop, dropWhile_digits all stop,
    if_neg ne, if_true, Strtol.mk.injEq, true_and, Bool.or_eq_false_iff, decide_eq_false_iff_not]
  omega

end

theorem isDigit_toDigits (n : Nat) : ∀ c ∈ Nat.toDigits 10 n, c.isDigit = true := fun _ mem =>
  Nat.isDigit_of_mem_toDigits (by decide) (by decide) mem

theorem ofDigitChars_toDigits (n : Nat) : Nat.ofDigitChars 10 (Nat.toDigits 10 n) 0 = n :=
  Nat.ofDigitChars_toDigits (by decide) (by decide)

theorem strtol_toText_append (low : -2 ^ 63 ≤ x) (high : x < 2 ^ 63) {tail : List Char}
    (stop : tail.head?.any Char.isDigit = false) : strtol (toText x ++ tail) = ⟨x, tail, false⟩ := by
  have all := isDigit_toDigits x.natAbs
  have value := ofDigitChars_toDigits x.natAbs
  unfold toText
  split
  · rw [List.cons_append, strtol_minus all Nat.toDigits_ne_nil stop (by omega), value, Strtol.mk.injEq]
    exact ⟨by omega, rfl, rfl⟩
  · rw [strtol_digits all Nat.toDigits_ne_nil stop (by omega), value, Strtol.mk.injEq]
    exact ⟨by omega, rfl, rfl⟩

theorem strtol_toText (low : -2 ^ 31 ≤ x) (high : x < 2 ^ 31) : strtol (toText x) = ⟨x, [], false⟩ := by
  have read : strtol (toText x ++ []) = ⟨x, [], false⟩ := strtol_toText_append (by omega) (by omega) rfl
  rwa [List.append_nil] at read

theorem toText_ne_nil (x : Int) : toText x ≠ [] := by
  unfold toText
  split
  · simp
  · exact Nat.toDigits_ne_nil

theorem toDigits_injective {m n : Nat} (eq : Nat.toDigits 10 m = Nat.toDigits 10 n) : m = n := by
  have same := congrArg (Nat.ofDigitChars 10 · 0) eq
  simpa only [Nat.ofDigitChars_toDigits (by decide : 1 < 10) (by decide : 10 ≤ 10)] using same

theorem toDigits_ne_minus (m : Nat) (cs : List Char) : Nat.toDigits 10 m ≠ '-' :: cs := by
  intro eq
  have digit : '-'.isDigit = true :=
    Nat.isDigit_of_mem_toDigits (b := 10) (n := m) (by decide) (by decide) (by simp [eq])
  exact absurd digit (by decide)

theorem toText_injective {x y : Int} (eq : toText x = toText y) : x = y := by
  unfold toText at eq
  split at eq <;> split at eq
  · have same := toDigits_injective (List.cons.inj eq).2
    omega
  · exact absurd eq.symm (toDigits_ne_minus _ _)
  · exact absurd eq (toDigits_ne_minus _ _)
  · have same := toDigits_injective eq
    omega

theorem mem_toText (mem : c ∈ toText x) : c = '-' ∨ c.isDigit = true := by
  unfold toText at mem
  split at mem
  · rcases List.mem_cons.1 mem with eq | mem
    · exact .inl eq
    · exact .inr (Nat.isDigit_of_mem_toDigits (by decide) (by decide) mem)
  · exact .inr (Nat.isDigit_of_mem_toDigits (by decide) (by decide) mem)

theorem slash_notMem_toText (x : Int) : '/' ∉ toText x := by
  intro mem
  rcases mem_toText mem with eq | digit
  · cases eq
  · exact absurd digit (by decide)

theorem picoLexicalCastInt_toText (low : -2 ^ 31 ≤ x) (high : x < 2 ^ 31) :
    picoLexicalCastInt (toText x) = some x := by
  have noZero : cStr (toText x) = toText x := by
    rw [cStr, List.takeWhile_eq_self_iff]
    intro c mem
    rcases mem_toText mem with rfl | digit
    · decide
    · have := ne_of_isDigit digit (by decide : (Char.ofNat 0).isDigit = false)
      simpa using this
  have noSpace : (toText x).head?.any isSpace = false := by
    obtain ⟨c, cs, eq⟩ := List.exists_cons_of_ne_nil (toText_ne_nil x)
    have mem : c ∈ toText x := by simp [eq]
    rw [eq]
    rcases mem_toText mem with rfl | digit
    · rfl
    · simpa using not_isSpace_of_isDigit digit
  simp [picoLexicalCastInt, noZero, noSpace, strtol_toText low high, (toText_ne_nil x).symm,
    int32_of_range low high]

theorem stoi_lastDigits {w n : Nat} (width : 0 < w) (fits : n < 10 ^ w) (small : n < 2 ^ 31) :
    stoi (lastDigits w n) = some (n : Int) := by
  have ne : lastDigits w n ≠ [] := by
    intro eq
    have len := lastDigits_length w n
    rw [eq, List.length_nil] at len
    omega
  have parsed : strtol (lastDigits w n) = ⟨n, [], false⟩ := by
    have all : ∀ c ∈ lastDigits w n, c.isDigit = true := fun c mem => mem_lastDigits mem
    have small : Nat.ofDigitChars 10 (lastDigits w n) 0 < 2 ^ 63 := by
      rw [ofDigitChars_lastDigits fits]
      omega
    have read : strtol (lastDigits w n ++ []) = _ := strtol_digits all ne rfl small
    rwa [List.append_nil, ofDigitChars_lastDigits fits] at read
  simp only [stoi, parsed, ne.symm, decide_false, Bool.or_false, Bool.false_or, Bool.or_eq_true,
    decide_eq_true_eq]
  rw [if_neg (by omega)]

theorem stoi_range {s : List Char} (parsed : stoi s = some x) : -2 ^ 31 ≤ x ∧ x < 2 ^ 31 := by
  simp only [stoi, Option.ite_none_left_eq_some, Option.some.injEq, Bool.or_eq_true,
    decide_eq_true_eq, not_or] at parsed
  omega

end Prpc
