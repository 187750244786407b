import Prpc.Misc.PoolHashTable.Iteration

namespace Prpc.PoolHashTable

variable {K V : Type} {d : Doubles} {P : Params K V} {t : Table K V d} {o : Nat}

/-- The nodes less than `PROBE_LEN` bytes behind `o`. -/
def probeWindow (P : Params K V) (t : Table K V d) (o : Nat) : List Nat :=
  (t.offsetsFrom o).takeWhile fun q => (q - o) * P.nodeSize < 128

/-- The first wanted node of the window, or the last one of the free list. -/
def nearest (P : Params K V) (t : Table K V d) (wanted : Nat → Bool) (o : Nat) : Nat :=
  ((probeWindow P t o).find? wanted).getD (t.prev 0)

theorem near_self : Table.near P o o = true := by simp [Table.near]

theorem not_near {q : Nat} (lt : o < q) (le : q ≤ t.numNodes) (fits : t.numNodes * P.nodeSize ≤ 2 ^ 64 - 128) :
    Table.near P o q = false := by
  obtain ⟨k, rfl⟩ := Nat.exists_eq_add_of_lt lt
  have far : (k + 1) * P.nodeSize ≤ t.numNodes * P.nodeSize := Nat.mul_le_mul_right _ (by omega)
  have apart : 0 < (k + 1) * P.nodeSize := Nat.mul_pos (Nat.succ_pos k) P.nodeSize_pos
  have difference : (o * P.nodeSize : Int) - (o + k + 1 : Nat) * P.nodeSize = -((k + 1) * P.nodeSize : Nat) := by
    push_cast
    ring
  rw [Table.near, difference, decide_eq_false_iff_not]
  generalize (k + 1) * P.nodeSize = distance at far apart
  omega

section
variable (pos : 1 ≤ o) (le : o ≤ t.numNodes)
include pos le

theorem probeWhere_eq (fits : t.numNodes * P.nodeSize ≤ 2 ^ 64 - 128)
    (wanted : Nat → Bool) : t.probeWhere P wanted o = if wanted o then o else t.prev 0 := by
  have alone : (t.offsetsFrom o).takeWhile (Table.near P o) = [o] := by
    rw [offsetsFrom_eq pos le, List.takeWhile_cons_of_pos near_self]
    cases more : t.numNodes - o with
    | zero => rfl
    | succ k =>
      have far : Table.near P o (o + 1) = false := not_near (Nat.lt_succ_self o) (by omega) fits
      rw [List.range'_succ, List.takeWhile_cons_of_neg (by simp [far])]
  rw [Table.probeWhere, alone, List.find?_singleton]
  split <;> rfl

theorem nearest_of_wanted {wanted : Nat → Bool} (here : wanted o) : nearest P t wanted o = o := by
  rw [nearest, probeWindow, offsetsFrom_eq pos le, List.takeWhile_cons_of_pos (by simp), List.find?_cons_of_pos here]
  rfl

theorem probeWhere_nearest_iff
    (fits : t.numNodes * P.nodeSize ≤ 2 ^ 64 - 128) (wanted : Nat → Bool) :
    t.probeWhere P wanted o = nearest P t wanted o ↔ wanted o ∨ nearest P t wanted o = t.prev 0 := by
  rw [probeWhere_eq pos le fits]
  by_cases here : wanted o
  · simp [here, nearest_of_wanted pos le here]
  · simp [here, eq_comm]

end

/-- Probing finds what it is meant to find exactly if that is the node it starts at or the last node of
the free list. -/
theorem probing_local_iff (pos : 1 ≤ o) (le : o ≤ t.numNodes) (fits : t.numNodes * P.nodeSize ≤ 2 ^ 64 - 128) :
    (t.probeNode P o = nearest P t t.isEmpty o ↔ t.isEmpty o ∨ nearest P t t.isEmpty o = t.prev 0) ∧
    (t.probeNodeRehash P o = nearest P t (fun q => t.isEmpty q || t.isRehashing q) o ↔
      (t.isEmpty o || t.isRehashing o) ∨
        nearest P t (fun q => t.isEmpty q || t.isRehashing q) o = t.prev 0) :=
  ⟨probeWhere_nearest_iff pos le fits _, probeWhere_nearest_iff pos le fits _⟩

theorem probing_local_construct :
    (construct plain).probeNode plain 1 = nearest plain (construct plain) (construct plain).isEmpty 1 :=
  (probing_local_iff (Nat.le_refl 1) (Nat.le_refl 1) (by decide)).1.2 (.inl rfl)

/-- Of three nodes of 24 bytes the first is in use. The second one is free and near, and the third one is
taken. -/
theorem probing_passes_window : ∃ o t,
    ((construct plain).innerRemapRehash plain 3).bind (·.place plain (0, 7)) = some (o, t) ∧
      t.probeNode plain 1 = 3 ∧ nearest plain t t.isEmpty 1 = 2 ∧ t.probeNodeRehash plain 1 = 3 ∧
      nearest plain t (fun q => t.isEmpty q || t.isRehashing q) 1 = 2 :=
  ⟨_, _, rfl, by decide +kernel, by decide +kernel, by decide +kernel, by decide +kernel⟩

end Prpc.PoolHashTable
