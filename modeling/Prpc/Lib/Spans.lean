import Mathlib.Algebra.GroupWithZero.Nat
import Mathlib.Data.List.Basic
import Mathlib.Algebra.BigOperators.Group.List.Basic

namespace Prpc.Lib

def wordSpace : Nat := 2 ^ 64

def address (a n : Nat) : Nat := (a + n) % wordSpace

theorem address_lt (a n : Nat) : address a n < wordSpace := Nat.mod_lt _ (by decide)

theorem address_of_lt {a n : Nat} (lt : a + n < wordSpace) : address a n = a + n := Nat.mod_eq_of_lt lt

theorem address_wraps {a n : Nat} (small : n < wordSpace) (ge : wordSpace ≤ a + n) (lt : a < wordSpace) :
    address a n < a := by
  rw [address, Nat.mod_eq_sub_mod ge, Nat.mod_eq_of_lt (by omega)]
  omega

theorem address_address (a n k : Nat) : address (address a n) k = address a (n + k) := by
  rw [address, address, address, Nat.mod_add_mod, Nat.add_assoc]

theorem address_mod (a n : Nat) : address a (n % wordSpace) = address a n := Nat.add_mod_mod a n wordSpace

def spans (a : Nat) : List Nat → List (Nat × Nat)
  | [] => []
  | n :: lengths => (a, n) :: spans (address a n) lengths

def Inside (start size : Nat) (span : Nat × Nat) : Prop :=
  span.2 = 0 ∨ start ≤ span.1 ∧ span.1 + span.2 ≤ start + size

instance (start size : Nat) (span : Nat × Nat) : Decidable (Inside start size span) :=
  inferInstanceAs (Decidable (_ ∨ _))

theorem spans_inside {start size : Nat} (fits : start + size < wordSpace) (lengths : List Nat) {t : Nat}
    (small : t < wordSpace) : (∀ span ∈ spans (address start t) lengths, Inside start size span) ↔
    lengths.sum = 0 ∨ t + lengths.sum ≤ size := by
  induction lengths generalizing t with
  | nil => simp [spans]
  | cons n lengths ih =>
    simp only [spans, List.forall_mem_cons, List.sum_cons, address_address]
    rcases Nat.eq_zero_or_pos n with rfl | pos
    · rw [Nat.add_zero, ih small]
      simp [Inside]
    · constructor
      · rintro ⟨first, rest⟩
        rcases first with zero | ⟨after, before⟩
        · exact absurd zero (Nat.ne_of_gt pos)
        -- the first span begins after the start, so the address of it has not wrapped around
        have inside : start + t < wordSpace := by
          by_contra ge
          have := address_wraps small (by omega) (by omega : start < wordSpace)
          omega
        rw [address_of_lt inside] at before
        rw [ih (by omega)] at rest
        omega
      · intro possible
        have le : t + (n + lengths.sum) ≤ size := by omega
        rw [ih (by omega), address_of_lt (by omega)]
        exact ⟨.inr ⟨by omega, by simp only; omega⟩, by omega⟩

end Prpc.Lib
