import Prpc.Misc.PoolHashTable.Remap

/-!
An iterator stands at a node with an item or at the end.
-/

namespace Prpc.PoolHashTable
open Lib

variable {K V : Type} {d : Doubles} {P : Params K V} {t t' : Table K V d} {free : List Nat}
  {chain : Nat → List (Slot K V)} {o : Nat} {s : Slot K V}

def behind (t : Table K V d) (it : Nat) : List Nat := if it = 0 then t.offsets else List.range' 1 (it - 1)

theorem mem_behind (pos : 1 ≤ o) {o' : Nat} : o' ∈ behind t o ↔ 1 ≤ o' ∧ o' < o := by
  rw [behind, if_neg (by omega), List.mem_range'_1]
  omega

theorem upTo_eq (pos : 1 ≤ o) : List.range' 1 o = behind t o ++ [o] := by
  have last : o = o - 1 + 1 := by omega
  have node : 1 + 1 * (o - 1) = o := by omega
  rw [behind, if_neg (by omega)]
  conv_lhs => rw [last]
  rw [List.range'_concat, node]

theorem offsetsFrom_eq (pos : 1 ≤ o) (le : o ≤ t.numNodes) :
    t.offsetsFrom o = o :: List.range' (o + 1) (t.numNodes - o) := by
  have length : t.numNodes + 1 - o = t.numNodes - o + 1 := by omega
  rw [Table.offsetsFrom, if_neg (by omega), length, List.range'_succ]

theorem lt_of_mem_probe {o' : Nat} (mem : o' ∈ t.offsetsFrom (t.probeOffset o)) : o < o' ∧ o' ≤ t.numNodes := by
  rw [Table.probeOffset] at mem
  by_cases more : o < t.numNodes
  · rw [if_pos more, offsetsFrom_eq (Nat.succ_pos o) more, ← List.range'_succ, List.mem_range'_1] at mem
    omega
  · rw [if_neg more] at mem
    cases mem

structure Advanced (t : Table K V d) (o it : Nat) : Prop where
  ahead : slotsOf t (t.offsetsFrom it) = slotsOf t (List.range' (o + 1) (t.numNodes - o))
  behind : slotsOf t (behind t it) = slotsOf t (List.range' 1 o)
  used : it ≠ 0 → o < it ∧ it ≤ t.numNodes ∧ t.tag it ≠ .empty

theorem slotsOf_append (before after : List Nat) : slotsOf t (before ++ after) = slotsOf t before ++ slotsOf t after :=
  List.filterMap_append

theorem advanced_find {k : Nat} (total : o + k = t.numNodes) :
    Advanced t o (((List.range' (o + 1) k).find? fun o => !t.isEmpty o).getD 0) := by
  induction k generalizing o with
  | zero =>
    have last : o = t.numNodes := total
    refine ⟨?_, ?_, fun some_ => absurd rfl some_⟩
    · rw [last, Nat.sub_self]
      rfl
    · rw [last]
      rfl
  | succ k ih =>
    rw [List.range'_succ]
    by_cases empty : t.tag (o + 1) = .empty
    · have later : o + 1 + k = t.numNodes := by omega
      obtain ⟨ahead, behind, used⟩ := ih later
      rw [List.find?_cons_of_neg (by simp [Table.isEmpty, empty])]
      refine ⟨ahead.trans ?_, behind.trans ?_, fun some_ => ?_⟩
      · have length : t.numNodes - o = t.numNodes - (o + 1) + 1 := by omega
        rw [length, List.range'_succ, slotsOf, slotsOf, List.filterMap_cons_none (slotOf_empty empty)]
      · have nothing : slotsOf t [1 + 1 * o] = [] := by
          refine slotsOf_empty fun o' mem => ?_
          rw [List.mem_singleton.1 mem, Nat.one_mul, Nat.add_comm]
          exact empty
        rw [List.range'_concat, slotsOf_append, nothing, List.append_nil]
      · obtain ⟨after, inside⟩ := used some_
        exact ⟨Nat.lt_of_succ_lt after, inside⟩
    · rw [List.find?_cons_of_pos (by simp [Table.isEmpty, empty]), Option.getD_some]
      refine ⟨?_, ?_, fun _ => ⟨Nat.lt_succ_self o, by omega, empty⟩⟩
      · have length : t.numNodes + 1 - (o + 1) = t.numNodes - o := by omega
        rw [Table.offsetsFrom, if_neg (Nat.succ_ne_zero o), length]
      · rw [PoolHashTable.behind, if_neg (Nat.succ_ne_zero o), Nat.add_sub_cancel]

theorem getNextOffset_advanced (le : o ≤ t.numNodes) : Advanced t o (t.getNextOffset o) := by
  have find := advanced_find (t := t) (Nat.add_sub_cancel' le)
  rw [Table.getNextOffset, Table.probeOffset]
  by_cases more : o < t.numNodes
  · have length : t.numNodes + 1 - (o + 1) = t.numNodes - o := by omega
    rw [if_pos more, Table.offsetsFrom, if_neg (Nat.succ_ne_zero o), length]
    exact find
  · have none_ : t.numNodes - o = 0 := by omega
    rw [none_] at find
    rw [if_neg more]
    exact find

theorem behind_append_ahead {it : Nat} (le : it ≤ t.numNodes) : behind t it ++ t.offsetsFrom it = t.offsets := by
  rw [behind, Table.offsetsFrom, Table.offsets]
  by_cases end_ : it = 0
  · rw [if_pos end_, if_pos end_, List.append_nil]
  · have first : it = 1 + (it - 1) := by omega
    have total : t.numNodes = it - 1 + (t.numNodes + 1 - it) := by omega
    rw [if_neg end_, if_neg end_]
    conv_rhs => rw [total]
    rw [← List.range'_append_1, ← first]

def Filled (t : Table K V d) : Prop := ∀ o, 1 ≤ o → o ≤ t.numNodes → t.tag o ≠ .empty → ∃ x, t.item o = some x

theorem Layout.filled (layout : Layout P t free [] chain []) : Filled t := by
  intro o pos le used
  obtain ⟨h, le', s, mem, rfl⟩ := layout.slot_of_tag pos le used
  exact ⟨s.2, (layout.chains h le').item_eq mem⟩

theorem Filled.ahead (filled : Filled t) (pos : 1 ≤ o) (le : o ≤ t.numNodes) (used : t.tag o ≠ .empty) :
    ∃ x, t.item o = some x ∧ slotsOf t (t.offsetsFrom o) = (o, x) :: slotsOf t (List.range' (o + 1) (t.numNodes - o)) := by
  obtain ⟨x, item⟩ := filled o pos le used
  refine ⟨x, item, ?_⟩
  rw [offsetsFrom_eq pos le, slotsOf, List.filterMap_cons_some (slotOf_used used item)]
  rfl

theorem Filled.iterate (filled : Filled t) {n it : Nat} (used : it ≠ 0 → it ≤ t.numNodes ∧ t.tag it ≠ .empty)
    (enough : (slotsOf t (t.offsetsFrom it)).length ≤ n) :
    t.iterate n it = some ((slotsOf t (t.offsetsFrom it)).map Prod.fst) := by
  induction n generalizing it with
  | zero =>
    cases it with
    | zero => rfl
    | succ o =>
      obtain ⟨le, used⟩ := used (Nat.succ_ne_zero o)
      obtain ⟨x, -, ahead⟩ := filled.ahead (Nat.succ_pos o) le used
      rw [ahead] at enough
      cases enough
  | succ n ih =>
    cases it with
    | zero => rfl
    | succ o =>
      obtain ⟨le, used⟩ := used (Nat.succ_ne_zero o)
      obtain ⟨x, -, ahead⟩ := filled.ahead (Nat.succ_pos o) le used
      have next := getNextOffset_advanced le
      rw [ahead, ← next.ahead] at enough ⊢
      rw [Table.iterate, ih (fun some_ => (next.used some_).2) (Nat.le_of_succ_le_succ enough)]
      rfl

theorem length_slotsOf_le (offsets : List Nat) : (slotsOf t offsets).length ≤ offsets.length := List.length_filterMap_le ..

theorem Filled.iteration (filled : Filled t) : t.iteration = some ((slotsOf t t.offsets).map Prod.fst) := by
  have start := getNextOffset_advanced (Nat.zero_le t.numNodes)
  have all : slotsOf t (t.offsetsFrom (t.getNextOffset 0)) = slotsOf t t.offsets := start.ahead
  have enough : (slotsOf t (t.offsetsFrom (t.getNextOffset 0))).length ≤ t.numNodes := by
    rw [all]
    exact (length_slotsOf_le _).trans_eq (List.length_range' ..)
  rw [Table.iteration, filled.iterate (fun some_ => (start.used some_).2) enough, all]

theorem item_of_mem_slotsOf {offsets : List Nat} (mem : s ∈ slotsOf t offsets) : s.1 ∈ offsets ∧ t.tag s.1 ≠ .empty ∧
    t.item s.1 = some s.2 := by
  obtain ⟨o, there, slot⟩ := List.mem_filterMap.1 mem
  rw [slotOf] at slot
  by_cases empty : t.isEmpty o
  · rw [if_pos empty] at slot
    cases slot
  · rw [if_neg empty] at slot
    obtain ⟨x, item, rfl⟩ := Option.map_eq_some_iff.1 slot
    exact ⟨there, fun tag => empty (decide_eq_true tag), item⟩

theorem mapM_item {slots : List (Slot K V)} (items : ∀ s ∈ slots, t.item s.1 = some s.2) :
    (slots.map Prod.fst).mapM t.item = some (slots.map Prod.snd) := by
  induction slots with
  | nil => rfl
  | cons s slots ih =>
    rw [List.map_cons, List.mapM_cons, items s (List.mem_cons_self ..),
      ih fun s' mem => items s' (List.mem_cons_of_mem _ mem)]
    rfl

theorem Filled.entries (filled : Filled t) : t.entries = some ((slotsOf t t.offsets).map Prod.snd) := by
  rw [Table.entries, filled.iteration]
  exact mapM_item fun s mem => (item_of_mem_slotsOf mem).2.2

end Prpc.PoolHashTable
