import Mathlib.Data.List.Basic

/-!
A position in a ring of `n` slots stands for every place of a stream with that remainder.
-/

namespace Prpc.Lib

def ringOffset (n b p : Nat) : Nat := (p + n - b) % n

variable {n b p q : Nat}

theorem ringOffset_mod (le : b ≤ p) (lt : p < b + n) : ringOffset n (b % n) (p % n) = p - b := by
  obtain ⟨d, rfl⟩ := Nat.exists_eq_add_of_le le
  have pos : 0 < n := by omega
  have small := Nat.mod_lt b pos
  have sum : (b + d) % n = (b % n + d) % n := by rw [Nat.mod_add_mod]
  rw [ringOffset, sum]
  rcases Nat.lt_or_ge (b % n + d) n with inside | wrapped
  · rw [Nat.mod_eq_of_lt inside, show b % n + d + n - b % n = d + n by omega, Nat.add_mod_right,
      Nat.mod_eq_of_lt (by omega)]
    omega
  · rw [Nat.mod_eq_sub_mod wrapped, Nat.mod_eq_of_lt (by omega : b % n + d - n < n),
      show b % n + d - n + n - b % n = d by omega, Nat.mod_eq_of_lt (by omega)]
    omega

theorem mod_eq_iff_of_near (le : p ≤ q) (near : q < p + n) : p % n = q % n ↔ p = q := by
  constructor
  · intro same
    have here : ringOffset n (p % n) (p % n) = p - p := ringOffset_mod (Nat.le_refl p) (by omega)
    have there := ringOffset_mod le near
    rw [← same, here] at there
    omega
  · rintro rfl
    rfl

theorem succ_mod (n p : Nat) : (p % n + 1) % n = (p + 1) % n := Nat.mod_add_mod p n 1

def ringFirst (n b : Nat) (start : Nat) (positions : List Nat) : Nat :=
  positions.foldl (fun first p => if ringOffset n b p < ringOffset n b first then p else first) start

theorem ringFirst_mod (start : Nat) (places : List Nat)
    (range : ∀ p ∈ start :: places, b ≤ p ∧ p < b + n) : ∃ first ∈ start :: places,
    ringFirst n (b % n) (start % n) (places.map (· % n)) = first % n ∧ ∀ p ∈ start :: places, first ≤ p := by
  induction places generalizing start with
  | nil => exact ⟨start, by simp, rfl, by simp⟩
  | cons p places ih =>
    have start_range := range start (by simp)
    have p_range := range p (by simp)
    have rest : ∀ q ∈ places, b ≤ q ∧ q < b + n := fun q mem => range q (by simp [mem])
    have offsets : ringOffset n (b % n) (p % n) < ringOffset n (b % n) (start % n) ↔ p < start := by
      rw [ringOffset_mod p_range.1 p_range.2, ringOffset_mod start_range.1 start_range.2]
      omega
    simp only [ringFirst, List.map_cons, List.foldl_cons, offsets]
    by_cases before : p < start
    · rw [if_pos before]
      obtain ⟨first, mem, eq, least⟩ := ih p (by simpa using ⟨p_range, rest⟩)
      refine ⟨first, List.mem_cons_of_mem _ mem, eq, fun q within => ?_⟩
      rcases List.mem_cons.mp within with rfl | within
      · have := least p (by simp)
        omega
      · exact least q within
    · rw [if_neg before]
      obtain ⟨first, mem, eq, least⟩ := ih start (by simpa using ⟨start_range, rest⟩)
      refine ⟨first, ?_, eq, fun q within => ?_⟩
      · rcases List.mem_cons.mp mem with rfl | mem
        · simp
        · simp [mem]
      · rcases List.mem_cons.mp within with rfl | within
        · exact least q (by simp)
        · rcases List.mem_cons.mp within with rfl | within
          · have := least start (by simp)
            omega
          · exact least q (by simp [within])

end Prpc.Lib
