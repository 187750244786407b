import Mathlib.Data.Char
import Mathlib.Data.List.Lex
import Mathlib.Data.Nat.Digits.Defs
import Mathlib.Tactic.IntervalCases

namespace Prpc.Lib

def lastDigits : Nat → Nat → List Char
  | 0, _ => []
  | w+1, n => lastDigits w (n / 10) ++ [(n % 10).digitChar]

@[simp] theorem lastDigits_length (w n : Nat) : (lastDigits w n).length = w := by
  induction w generalizing n with
  | zero => rfl
  | succ w ih => simp [lastDigits, ih]

theorem lastDigits_zero (w : Nat) : lastDigits w 0 = List.replicate w '0' := by
  induction w with
  | zero => rfl
  | succ w ih =>
    rw [lastDigits, Nat.zero_div, ih, List.replicate_succ']
    rfl

theorem leftpad_toDigits {w n : Nat} (small : n < 10 ^ (w + 1)) :
    (Nat.toDigits 10 n).leftpad (w + 1) '0' = lastDigits (w + 1) n := by
  induction w generalizing n with
  | zero =>
    have lt : n < 10 := by simpa using small
    rw [Nat.toDigits_of_lt_base lt, lastDigits, Nat.mod_eq_of_lt lt]
    rfl
  | succ w ih =>
    rw [lastDigits]
    by_cases lt : n < 10
    · rw [Nat.toDigits_of_lt_base lt, Nat.div_eq_of_lt lt, Nat.mod_eq_of_lt lt, lastDigits_zero]
      simp [List.leftpad]
    · rw [Nat.toDigits_of_base_le (by decide) (by omega), ← ih (by omega)]
      simp only [List.leftpad, List.length_append, List.length_cons, List.length_nil]
      rw [← List.append_assoc, show w + 1 + 1 - ((Nat.toDigits 10 (n / 10)).length + (0 + 1)) =
        w + 1 - (Nat.toDigits 10 (n / 10)).length by omega]

theorem digitChar_lt {a b : Nat} (lt : a < b) (small : b < 10) : a.digitChar < b.digitChar := by
  interval_cases b <;> interval_cases a <;> decide

theorem append_lt_append {l₁ l₂ r₁ r₂ : List Char} (len : l₁.length = l₂.length) (lt : l₁ < l₂) :
    l₁ ++ r₁ < l₂ ++ r₂ := by
  induction l₁ generalizing l₂ with
  | nil =>
    cases l₂ with
    | nil => exact absurd lt (lt_irrefl _)
    | cons b l₂ => simp at len
  | cons a l₁ ih =>
    cases l₂ with
    | nil => simp at len
    | cons b l₂ =>
      rw [List.cons_append, List.cons_append]
      rcases List.cons_lt_cons_iff.1 lt with head | ⟨rfl, tail⟩
      · exact List.cons_lt_cons_iff.2 (.inl head)
      · exact List.cons_lt_cons_iff.2 (.inr ⟨rfl, ih (by simpa using len) tail⟩)

theorem append_lt_append_left (l : List Char) {r₁ r₂ : List Char} (lt : r₁ < r₂) : l ++ r₁ < l ++ r₂ := by
  induction l with
  | nil => exact lt
  | cons a l ih => exact List.cons_lt_cons_iff.2 (.inr ⟨rfl, ih⟩)

theorem lastDigits_lt {w n m : Nat} (lt : n < m) (small : m < 10 ^ w) : lastDigits w n < lastDigits w m := by
  induction w generalizing n m with
  | zero => omega
  | succ w ih =>
    rw [lastDigits, lastDigits]
    by_cases same : n / 10 = m / 10
    · rw [same]
      apply append_lt_append_left
      exact List.cons_lt_cons_iff.2 (.inl (digitChar_lt (by omega) (by omega)))
    · exact append_lt_append (by simp) (ih (by omega) (by omega))

theorem lastDigits_injective {w n m : Nat} (hn : n < 10 ^ w) (hm : m < 10 ^ w)
    (same : lastDigits w n = lastDigits w m) : n = m := by
  rcases lt_trichotomy n m with lt | eq | gt
  · exact absurd same (lastDigits_lt lt hm).ne
  · exact eq
  · exact absurd same (lastDigits_lt gt hn).ne'

theorem mem_lastDigits {w n : Nat} {c : Char} (mem : c ∈ lastDigits w n) : c.isDigit := by
  induction w generalizing n with
  | zero => simp [lastDigits] at mem
  | succ w ih =>
    rcases List.mem_append.1 mem with left | right
    · exact ih left
    · rw [List.mem_singleton.1 right]
      have lt : n % 10 < 10 := Nat.mod_lt _ (by decide)
      interval_cases n % 10 <;> decide

theorem ofDigitChars_lastDigits {w n : Nat} (small : n < 10 ^ w) :
    Nat.ofDigitChars 10 (lastDigits w n) 0 = n := by
  induction w generalizing n with
  | zero =>
    have zero : n = 0 := by simpa using small
    subst zero
    rfl
  | succ w ih =>
    have lt : n % 10 < 10 := Nat.mod_lt _ (by decide)
    have digit : (n % 10).digitChar.toNat - '0'.toNat = n % 10 := by
      interval_cases n % 10 <;> decide
    rw [lastDigits, Nat.ofDigitChars_append, ih (by omega)]
    simp only [Nat.ofDigitChars, List.foldl_cons, List.foldl_nil, digit]
    omega

end Prpc.Lib
