import Prpc.Misc.PoolHashTable.Iteration
import Prpc.Misc.PoolHashTable.Placing

namespace Prpc.PoolHashTable
open Lib

variable {K V : Type} {d : Doubles} {P : Params K V} {t t' : Table K V d} {free : List Nat}
  {chain : Nat → List (Slot K V)} {h o : Nat} {x y : K × V} {s : Slot K V}

def contents (t : Table K V d) : List (K × V) := (slotsOf t t.offsets).map Prod.snd

section
variable (layout : Layout P t free [] chain [])
include layout

theorem Layout.contents_perm :
    (contents t).Perm ((inChains (t.numNodes + 1) chain).map Prod.snd) := layout.slots_perm.map Prod.snd

theorem Layout.mem_slots : s ∈ slotsOf t t.offsets ↔ ∃ h ≤ t.numNodes, s ∈ chain h := by
  rw [layout.slots_perm.mem_iff, mem_inChains]
  exact exists_congr fun h => and_congr_left fun _ => Nat.lt_succ_iff

theorem Layout.mem_free : o ∈ free ↔ 1 ≤ o ∧ o ≤ t.numNodes ∧ t.tag o = .empty := by
  constructor
  · intro mem
    obtain ⟨pos, le⟩ := layout.pos (o := o) (by simp [mem])
    exact ⟨pos, le, layout.idle o mem⟩
  · rintro ⟨pos, le, empty⟩
    exact layout.free_of_empty pos le empty

end

section
variable (wellFormed : WellFormed P t)
include wellFormed

theorem WellFormed.filled : Filled t := by
  obtain ⟨free, chain, arranged⟩ := wellFormed
  exact arranged.layout.filled

theorem WellFormed.size : t.numItems = (contents t).length := by
  obtain ⟨free, chain, arranged⟩ := wellFormed
  rw [arranged.numItems_eq, arranged.layout.contents_perm.length_eq, List.length_map]

theorem WellFormed.entries : t.entries = some (contents t) := wellFormed.filled.entries

end

theorem node_of_mem_slots (mem : (o, x) ∈ slotsOf t t.offsets) :
    1 ≤ o ∧ o ≤ t.numNodes ∧ t.tag o ≠ .empty ∧ t.item o = some x := by
  obtain ⟨there, used, item⟩ := item_of_mem_slotsOf mem
  obtain ⟨pos, le⟩ := Layout.mem_offsets.1 there
  exact ⟨pos, le, used, item⟩

section
variable (wellFormed : WellFormed P t)
include wellFormed

theorem WellFormed.find [DecidableEq K] (key : K) : ∃ o, t.find P key = some o ∧
    (o = 0 ∧ (∀ x ∈ contents t, x.1 ≠ key) ∨ ∃ v, (o, (key, v)) ∈ slotsOf t t.offsets) := by
  obtain ⟨free, chain, arranged⟩ := wellFormed
  have layout := arranged.layout
  have le : t.hashHead P key ≤ t.numNodes := Table.hashHead_le arranged.pos key
  refine ⟨_, layout.innerFind arranged.pos key, ?_⟩
  cases found : (chain (t.hashHead P key)).find? fun s => s.2.1 = key with
  | none =>
    refine .inl ⟨rfl, fun x mem same => ?_⟩
    obtain ⟨s, slot, rfl⟩ := List.mem_map.1 mem
    obtain ⟨h, le', there⟩ := layout.mem_slots.1 slot
    have own : h = t.hashHead P key := by
      rw [← same]
      exact ((layout.chains h le').placed s there).symm
    rw [own] at there
    exact List.find?_eq_none.1 found s there (decide_eq_true same)
  | some s =>
    have same : s.2.1 = key := by simpa using List.find?_some found
    subst same
    exact .inr ⟨s.2.2, layout.mem_slots.2 ⟨_, le, List.mem_of_find?_eq_some found⟩⟩

theorem WellFormed.place (room : t.numItems < t.numNodes) (x : K × V) :
    ∃ o t', t.place P x = some (o, t') ∧ WellFormed P t' ∧ Within t t' ∧ (contents t').Perm (x :: contents t) ∧
      (o, x) ∈ slotsOf t' t'.offsets := by
  obtain ⟨free, chain, arranged⟩ := wellFormed
  have layout := arranged.layout
  have count := arranged.count
  have some_ : free ≠ [] := by
    rintro rfl
    rw [List.length_nil] at count
    omega
  obtain ⟨o, t', free', chain', place, placed⟩ := layout.place arranged.pos some_ x
  have layout' := placed.layout
  have nodes := placed.within.nodes
  have arranged' : Arranged P t' free' chain' := by
    refine ⟨layout', nodes ▸ arranged.pos, ?_, fun o beyond => ?_⟩
    · have fewer := placed.room
      rw [placed.count, nodes]
      omega
    · rw [nodes] at beyond
      rw [(Table.same_of_mem (placed.within.beyond o beyond)).1]
      exact arranged.stale o beyond
  have items := placed.items
  have le : t.hashHead P x.1 ≤ t.numNodes := Table.hashHead_le arranged.pos x.1
  refine ⟨o, t', place, ⟨free', chain', arranged'⟩, placed.within, ?_, ?_⟩
  · have perm := layout'.contents_perm
    rw [nodes] at perm
    exact perm.trans (items.trans (layout.contents_perm.cons x).symm)
  · exact layout'.mem_slots.2 ⟨_, nodes ▸ le, placed.slot⟩

theorem WellFormed.place_all (xs : List (K × V))
    (room : (contents t).length + xs.length ≤ t.numNodes) :
    ∃ t', xs.foldlM (fun t x => do return (← t.place P x).2) t = some t' ∧ WellFormed P t' ∧ Within t t' ∧
      (contents t').Perm (xs ++ contents t) := by
  induction xs generalizing t with
  | nil => exact ⟨t, rfl, wellFormed, Within.refl t, .refl _⟩
  | cons x xs ih =>
    have size := wellFormed.size
    rw [List.length_cons] at room
    obtain ⟨o, t₁, place, wellFormed₁, within₁, perm₁, -⟩ := wellFormed.place (by omega) x
    have nodes := within₁.nodes
    have length := perm₁.length_eq
    rw [List.length_cons] at length
    obtain ⟨t', rest, wellFormed', within', perm'⟩ := ih wellFormed₁ (by omega)
    refine ⟨t', ?_, wellFormed', within₁.trans within', perm'.trans ((perm₁.append_left xs).trans List.perm_middle)⟩
    rw [List.foldlM_cons, place]
    exact rest

end

theorem Layout.setItem {before after : List (Slot K V)} (layout : Layout P t free [] chain []) (le : h ≤ t.numNodes)
    (eq : chain h = before ++ (o, x) :: after) (home : t.hashHead P y.1 = h) :
    Layout P (t.setItem o y) free [] (Function.update chain h (before ++ (o, y) :: after)) [] := by
  have nodes : (t.setItem o y).numNodes = t.numNodes := rfl
  have chained := layout.chains h le
  have nodup := layout.chain_nodup le
  rw [eq] at chained nodup
  rw [List.map_append, List.map_cons, List.nodup_middle, List.nodup_cons, ← List.map_append] at nodup
  have others : ∀ s ∈ before ++ after, s.1 ≠ o := fun s mem same => nodup.1 (List.mem_map.2 ⟨s, mem, same⟩)
  have kept {s : Slot K V} (mem : s ∈ before ++ after) : t.next s.1 = t.next s.1 ∧
      Function.update t.item o (some y) s.1 = t.item s.1 := ⟨rfl, Function.update_of_ne (others s mem) ..⟩
  obtain ⟨m, first, at_, -, rest⟩ := path_append.1 (chained.path (by simp))
  refine layout.rechain le nodes [o] (fun o' out => ?_) (fun o' mem => ?_) ⟨fun _ => ?_, ?_, ?_, fun s mem => ?_⟩ nofun ?_
  · exact Table.mem_setBody _ fun same => out (same ▸ List.mem_singleton_self _)
  · rw [List.mem_singleton.1 mem, eq]
    exact .inl (List.mem_map_of_mem (List.mem_append_right before (List.mem_cons_self ..)))
  · rw [Table.next_setItem, Table.item_setItem]
    refine path_append.2 ⟨m, first.congr fun s mem => kept (List.mem_append_left _ mem), at_, Function.update_self ..,
      rest.congr fun s mem => kept (List.mem_append_right _ mem)⟩
  · rw [Table.tag_setItem]
    cases before with
    | nil =>
      intro s mem
      rw [← Option.some.inj mem]
      exact chained.first (o, x) rfl
    | cons b before => exact chained.first
  · rw [Table.tag_setItem]
    cases before with
    | nil => exact chained.rest
    | cons b before =>
      intro s mem
      rcases List.mem_append.1 mem with mem | mem
      · exact chained.rest s (List.mem_append_left _ mem)
      · rcases List.mem_cons.1 mem with rfl | mem
        · exact chained.rest (o, x) (List.mem_append_right _ (List.mem_cons_self ..))
        · exact chained.rest s (List.mem_append_right _ (List.mem_cons_of_mem _ mem))
  · rw [Table.hashHead_congr nodes]
    rcases List.mem_append.1 mem with mem | mem
    · exact chained.placed s (List.mem_append_left _ mem)
    · rcases List.mem_cons.1 mem with rfl | mem
      · exact home
      · exact chained.placed s (List.mem_append_right _ (List.mem_cons_of_mem _ mem))
  · rw [eq, List.map_append, List.map_append]
    exact .refl _

theorem WellFormed.setItem (wellFormed : WellFormed P t) (mem : (o, x) ∈ slotsOf t t.offsets)
    (home : t.hashHead P y.1 = t.hashHead P x.1) : WellFormed P (t.setItem o y) ∧ Within t (t.setItem o y) ∧
      ((o, y) :: slotsOf t t.offsets).Perm ((o, x) :: slotsOf (t.setItem o y) (t.setItem o y).offsets) ∧
      (o, y) ∈ slotsOf (t.setItem o y) (t.setItem o y).offsets := by
  obtain ⟨free, chain, arranged⟩ := wellFormed
  have layout := arranged.layout
  obtain ⟨h, le, there⟩ := layout.mem_slots.1 mem
  obtain ⟨before, after, eq⟩ := List.append_of_mem there
  have layout' := layout.setItem le eq (home.trans ((layout.chains h le).placed _ there))
  refine ⟨⟨free, _, layout', arranged.pos, arranged.count, fun o' beyond => ?_⟩,
    (Within.refl t).setItem (layout.node_pos le there).2 y, ?_, layout'.mem_slots.2 ⟨h, le, ?_⟩⟩
  · rw [Table.tag_setItem]
    exact arranged.stale o' beyond
  · have swapped : (chain h ++ [(o, y)]).Perm (before ++ (o, y) :: after ++ [(o, x)]) := by
      rw [eq, List.append_assoc, List.append_assoc]
      refine List.Perm.append_left before ?_
      calc (o, x) :: (after ++ [(o, y)])
        _ |>.Perm ((o, x) :: (o, y) :: after) := (List.perm_append_singleton ..).cons _
        _ |>.Perm ((o, y) :: (o, x) :: after) := .swap ..
        _ |>.Perm ((o, y) :: (after ++ [(o, x)])) := (List.perm_append_singleton ..).symm.cons _
    have all := inChains_update_perm (Nat.lt_succ_of_le le) swapped
    have old := (List.perm_append_singleton (o, y) (slotsOf t t.offsets)).symm.trans (layout.slots_perm.append_right _)
    exact old.trans (all.trans ((layout'.slots_perm.symm.append_right _).trans (List.perm_append_singleton ..)))
  · rw [Function.update_self]
    exact List.mem_append_right _ (List.mem_cons_self ..)

theorem Layout.head_slot (layout : Layout P t free [] chain []) (le : h ≤ t.numNodes) (mem : s ∈ chain h) :
    ∃ y, (h, y) ∈ chain h := by
  have chained := layout.chains h le
  cases eq : chain h with
  | nil =>
    rw [eq] at mem
    cases mem
  | cons s₀ c =>
    rw [eq] at chained
    have first : h = s₀.1 := (chained.path (List.cons_ne_nil _ _)).1
    exact ⟨s₀.2, first ▸ List.mem_cons_self ..⟩

theorem Table.prioritise_eq [DecidableEq K] (key : K) : t.prioritise P key = (do
    let o ← t.find P key
    if o ≠ 0 then return (t.hashHead P key, t.exchangeItems (t.hashHead P key) o) else return (0, t)) := by
  rw [Table.prioritise, Table.find, Table.innerFind]
  by_cases empty : t.isEmpty (t.hashHead P key)
  · rw [if_pos empty, if_pos empty]
    rfl
  · rw [if_neg empty, if_neg empty]

theorem WellFormed.prioritise [DecidableEq K] (wellFormed : WellFormed P t) (key : K) :
    ∃ o t', t.prioritise P key = some (o, t') ∧ WellFormed P t' ∧ Within t t' ∧ (contents t').Perm (contents t) ∧
      (o = 0 ∧ (∀ x ∈ contents t, x.1 ≠ key) ∨ ∃ v, (o, (key, v)) ∈ slotsOf t' t'.offsets) := by
  obtain ⟨o, find, found⟩ := wellFormed.find key
  rw [Table.prioritise_eq, find]
  rcases found with ⟨rfl, absent⟩ | ⟨v, mem⟩
  · exact ⟨0, t, rfl, wellFormed, Within.refl t, .refl _, .inl ⟨rfl, absent⟩⟩
  · obtain ⟨free, chain, arranged⟩ := id wellFormed
    have layout := arranged.layout
    obtain ⟨h, le, there⟩ := layout.mem_slots.1 mem
    have own : t.hashHead P key = h := (layout.chains h le).placed _ there
    obtain ⟨y, first⟩ := layout.head_slot le there
    have home : t.hashHead P y.1 = h := (layout.chains h le).placed _ first
    have item : t.item h = some y := (layout.chains h le).item_eq first
    obtain ⟨pos, -, -, item'⟩ := node_of_mem_slots mem
    obtain ⟨wellFormed₁, within₁, perm₁, mem₁⟩ := wellFormed.setItem mem (home.trans own.symm)
    have first₁ : (h, y) ∈ slotsOf (t.setItem o y) (t.setItem o y).offsets := by
      have either := perm₁.mem_iff.1 (List.mem_cons_of_mem _ (layout.mem_slots.2 ⟨h, le, first⟩))
      rcases List.mem_cons.1 either with same | mem
      · rw [Prod.mk.injEq] at same
        rw [same.1]
        exact mem₁
      · exact mem
    obtain ⟨wellFormed₂, within₂, perm₂, mem₂⟩ := wellFormed₁.setItem first₁ (y := (key, v)) (own.trans home.symm)
    have some_ : o ≠ 0 := Nat.ne_of_gt pos
    refine ⟨h, _, ?_, wellFormed₂, within₁.trans within₂, ?_, .inr ⟨v, mem₂⟩⟩
    · rw [own, Option.bind_eq_bind, Option.bind_some, if_pos some_, Table.exchangeItems_eq item item']
      rfl
    · exact ((perm₁.map Prod.snd).trans (perm₂.map Prod.snd)).cons_inv.symm

end Prpc.PoolHashTable
