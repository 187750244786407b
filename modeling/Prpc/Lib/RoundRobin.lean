import Mathlib.Data.List.Rotate
import Prpc.Lib.RingIndex

namespace Prpc.Lib

variable {α : Type} {l turns : List α} {i : Nat}

def TakesTurns (l turns : List α) (i : Nat) : Prop := ∀ k < turns.length, turns[k]? = l[(i + k) % l.length]?

theorem takesTurns_nil (l : List α) (i : Nat) : TakesTurns l [] i := fun _ lt => absurd lt (Nat.not_lt_zero _)

theorem TakesTurns.mod (rounds : TakesTurns l turns (i % l.length)) : TakesTurns l turns i := by
  intro k lt
  rw [rounds k lt, Nat.mod_add_mod]

theorem TakesTurns.cons {a : α} (first : l[i % l.length]? = some a) (rest : TakesTurns l turns (i + 1)) :
    TakesTurns l (a :: turns) i := by
  intro k lt
  cases k with
  | zero => exact first.symm
  | succ k =>
    rw [List.getElem?_cons_succ, rest k (Nat.lt_of_succ_lt_succ lt), Nat.add_assoc, Nat.add_comm 1]

theorem TakesTurns.window (rounds : TakesTurns l turns i) {window : List α} (part : window <:+: turns)
    (whole : window.length = l.length) : window.Perm l := by
  obtain ⟨before, after, rfl⟩ := part
  have rotated : window = l.rotate (i + before.length) := by
    refine List.ext_getElem? fun k => ?_
    rcases Nat.lt_or_ge k window.length with inside | outside
    · have place := rounds (before.length + k) (by simp only [List.length_append]; omega)
      rw [List.append_assoc, List.getElem?_append_right (by omega), Nat.add_sub_cancel_left,
        List.getElem?_append_left inside] at place
      rw [place, List.getElem?_rotate (whole ▸ inside)]
      congr 2
      omega
    · rw [List.getElem?_eq_none outside, List.getElem?_eq_none (by rw [List.length_rotate]; omega)]
  rw [rotated]
  exact List.rotate_perm l _

theorem TakesTurns.leaves_out (rounds : TakesTurns l turns i) (nodup : l.Nodup)
    (long : l.length ≤ turns.length + 1) {a skipped : α} (ne : a ≠ skipped)
    (due : l[(i + turns.length) % l.length]? = some skipped) :
    ∃ window, window <:+: turns ++ [a] ∧ window.length = l.length ∧ skipped ∉ window := by
  have pos : 0 < l.length := by
    rcases Nat.eq_zero_or_pos l.length with zero | pos
    · rw [List.length_eq_zero_iff.1 zero] at due
      cases due
    · exact pos
  refine ⟨turns.drop (turns.length + 1 - l.length) ++ [a], ?_, ?_, fun mem => ?_⟩
  · refine ⟨turns.take (turns.length + 1 - l.length), [], ?_⟩
    rw [List.append_nil, ← List.append_assoc, List.take_append_drop]
  · rw [List.length_append, List.length_drop, List.length_singleton]
    omega
  · rcases List.mem_append.1 mem with earlier | last
    · obtain ⟨k, lt, eq⟩ := List.mem_iff_getElem.1 earlier
      rw [List.length_drop] at lt
      have place := rounds (turns.length + 1 - l.length + k) (by omega)
      rw [List.getElem_drop] at eq
      rw [List.getElem?_eq_getElem (by omega), eq, ← due] at place
      -- Less than one revolution apart, so the two places of `l` are different.
      have inside := Nat.mod_lt (i + (turns.length + 1 - l.length + k)) pos
      have same := (List.getElem?_inj inside nodup).1 place.symm
      rw [mod_eq_iff_of_near (by omega) (by omega)] at same
      omega
    · exact ne (List.mem_singleton.1 last).symm

end Prpc.Lib
