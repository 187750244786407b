import Mathlib.Algebra.BigOperators.Group.Finset.Piecewise
import Mathlib.Algebra.BigOperators.Ring.Finset
import Mathlib.Algebra.Order.BigOperators.Group.Finset
import Mathlib.Data.Fintype.Card

namespace Prpc.Lib

variable {ι σ : Type*} [Fintype ι] {p q : σ → Bool} {f : ι → σ} {i j : ι}

def count (p : σ → Bool) (f : ι → σ) : Nat := (Finset.univ.filter fun i => p (f i) = true).card

theorem count_eq_sum (p : σ → Bool) (f : ι → σ) : count p f = ∑ i, (p (f i)).toNat := by
  rw [count, Finset.card_filter]
  refine Finset.sum_congr rfl fun i _ => ?_
  cases p (f i) <;> rfl

theorem count_update [DecidableEq ι] (p : σ → Bool) (f : ι → σ) (i : ι) (x : σ) :
    count p (Function.update f i x) + (p (f i)).toNat = count p f + (p x).toNat := by
  have moved : (fun j => (p (Function.update f i x j)).toNat) =
      Function.update (fun j => (p (f j)).toNat) i (p x).toNat := by
    funext j
    exact Function.apply_update (fun _ y => (p y).toNat) f i x j
  have split := Finset.sum_erase_add Finset.univ (fun j => (p (f j)).toNat) (Finset.mem_univ i)
  rw [count_eq_sum, count_eq_sum, moved, Finset.sum_update_of_mem (Finset.mem_univ i),
    Finset.sdiff_singleton_eq_erase]
  omega

theorem count_eq_zero : count p f = 0 ↔ ∀ i, p (f i) = false := by
  rw [count, Finset.card_eq_zero, Finset.filter_eq_empty_iff]
  simp

theorem count_pos (h : p (f i) = true) : 0 < count p f := by
  rw [Nat.pos_iff_ne_zero]
  intro zero
  rw [count_eq_zero.1 zero i] at h
  cases h

theorem count_unique (one : count p f ≤ 1) (hi : p (f i) = true) (hj : p (f j) = true) : i = j := by
  refine Finset.card_le_one.1 one i ?_ j ?_
  · simpa using hi
  · simpa using hj

theorem count_add_le {r : σ → Bool} (le : ∀ x, (p x).toNat + (q x).toNat ≤ (r x).toNat) :
    count p f + count q f ≤ count r f := by
  rw [count_eq_sum, count_eq_sum, count_eq_sum, ← Finset.sum_add_distrib]
  exact Finset.sum_le_sum fun i _ => le (f i)

theorem count_le_card : count p f ≤ Fintype.card ι := Finset.card_le_univ _

end Prpc.Lib
