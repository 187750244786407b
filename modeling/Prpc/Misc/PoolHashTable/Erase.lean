import Mathlib.Data.List.Find
import Prpc.Misc.PoolHashTable.Contents

namespace Prpc.PoolHashTable
open Lib
open Function (update update_self update_of_ne update_eq_self)

variable {K V : Type} {d : Doubles} {P : Params K V} {t t' : Table K V d} {free : List Nat}
  {chain : Nat → List (Slot K V)} {h o p : Nat} {x y : K × V} {before after : List (Slot K V)}

section
variable (layout : Layout P t free [] chain []) (le : h ≤ t.numNodes)
include layout le

theorem Layout.pull
    (eq : chain h = before ++ (o, x) :: (p, y) :: after) :
    Layout P ((t.moveFrom o p).setNext o (t.next p)) free [p]
      (update chain h (before ++ (o, y) :: after)) [] := by
  have nodes : ((t.moveFrom o p).setNext o (t.next p)).numNodes = t.numNodes := rfl
  have chained := layout.chains h le
  have nodup := layout.chain_nodup le
  rw [eq] at chained nodup
  have apart : ∀ s ∈ before ++ after, s.1 ≠ o := by
    intro s mem same
    rw [List.map_append, List.map_cons, List.nodup_middle, List.nodup_cons, ← List.map_append] at nodup
    refine nodup.1 (List.mem_map.2 ⟨s, ?_, same⟩)
    simp only [List.mem_append, List.mem_cons] at mem ⊢
    tauto
  obtain ⟨m, first, at_, item, at', item', rest⟩ := path_append.1 (chained.path (by simp))
  have tags : ((t.moveFrom o p).setNext o (t.next p)).tag = t.tag := by
    rw [Table.tag_setNext, Table.tag_moveFrom]
  have next : ((t.moveFrom o p).setNext o (t.next p)).next = update t.next o (t.next p) := by
    rw [Table.next_setNext, Table.next_moveFrom]
  have items : ((t.moveFrom o p).setNext o (t.next p)).item = update t.item o (some y) := by
    rw [Table.item_setNext, Table.item_moveFrom, item']
  have kept {s : Slot K V} (mem : s ∈ before ++ after) : update t.next o (t.next p) s.1 = t.next s.1 ∧
      update t.item o (some y) s.1 = t.item s.1 :=
    ⟨update_of_ne (apart s mem) .., update_of_ne (apart s mem) ..⟩
  have all : ∀ s ∈ before ++ (o, y) :: after, s = (o, y) ∨ s ∈ before ++ after := fun s mem => by
    simp only [List.mem_append, List.mem_cons] at mem ⊢
    tauto
  refine layout.rechain le nodes [o] (fun o' out => ?_) ?_ ⟨fun _ => ?_, ?_, ?_, fun s mem => ?_⟩ nofun ?_
  · have other : o' ≠ o := fun same => out (same ▸ List.mem_singleton_self _)
    exact (Table.mem_setWord _ _ other).trans (Table.mem_setBody _ other)
  · intro o' mem
    rw [List.mem_singleton.1 mem, eq]
    exact .inl (List.mem_map_of_mem (List.mem_append_right before (List.mem_cons_self ..)))
  · rw [next, items]
    refine path_append.2 ⟨o, ?_, rfl, update_self .., ?_⟩
    · rw [at_] at first
      exact first.congr fun s mem => kept (List.mem_append_left _ mem)
    · rw [update_self]
      exact rest.congr fun s mem => kept (List.mem_append_right _ mem)
  · rw [tags]
    cases before with
    | nil =>
      intro s mem
      rw [← Option.some.inj mem]
      exact chained.first (o, x) rfl
    | cons b before => exact chained.first
  · rw [tags]
    cases before with
    | nil => exact fun s mem => chained.rest s (List.mem_cons_of_mem _ mem)
    | cons b before =>
      intro s mem
      rcases List.mem_append.1 mem with mem | mem
      · exact chained.rest s (List.mem_append_left _ mem)
      · rcases List.mem_cons.1 mem with rfl | mem
        · exact chained.rest (o, x) (List.mem_append_right _ (List.mem_cons_self ..))
        · exact chained.rest s (List.mem_append_right _ (List.mem_cons_of_mem _ (List.mem_cons_of_mem _ mem)))
  · rw [Table.hashHead_congr nodes]
    rcases all s mem with rfl | mem
    · exact chained.placed (p, y) (by simp)
    · refine chained.placed s ?_
      simp only [List.mem_append, List.mem_cons] at mem ⊢
      tauto
  · rw [eq]
    simp only [List.map_append, List.map_cons, List.map_nil, List.nil_append, List.append_nil, List.append_assoc,
      List.cons_append]
    exact (((List.perm_append_singleton p _).symm).cons o).append_left _

theorem Layout.unlink {b : Slot K V}
    (eq : chain h = before ++ [b] ++ [(o, x)]) :
    Layout P (t.setNext b.1 0) free [o] (update chain h (before ++ [b])) [] := by
  have nodes : (t.setNext b.1 0).numNodes = t.numNodes := rfl
  have chained := layout.chains h le
  have nodup := layout.chain_nodup le
  rw [eq] at chained nodup
  obtain ⟨m, first, -⟩ := path_append.1 (chained.path (by simp))
  refine layout.rechain le nodes [b.1] (fun o' out => ?_) ?_ ⟨fun _ => ?_, ?_, ?_, fun s mem => ?_⟩ nofun ?_
  · exact Table.mem_setWord _ _ fun same => out (same ▸ List.mem_singleton_self _)
  · intro o' mem
    rw [List.mem_singleton.1 mem, eq]
    exact .inl (List.mem_map_of_mem (by simp))
  · rw [Table.next_setNext, Table.item_setNext]
    rw [List.map_append] at nodup
    exact first.redirect nodup.of_append_left
  · rw [Table.tag_setNext]
    intro s mem
    refine chained.first s ?_
    rwa [List.head?_append_of_ne_nil _ (by simp)]
  · rw [Table.tag_setNext]
    intro s mem
    refine chained.rest s ?_
    rw [List.tail_append_of_ne_nil (by simp)]
    exact List.mem_append_left _ mem
  · rw [Table.hashHead_congr nodes]
    exact chained.placed s (List.mem_append_left _ mem)
  · rw [eq]
    simp

theorem Layout.unhead (eq : chain h = [(o, x)]) : Layout P t free [o] (update chain h []) [] := by
  refine layout.rechain le rfl [] (fun _ _ => rfl) nofun (Chained.nil P t h) nofun ?_
  rw [eq]
  rfl

end

theorem Arranged.deallocate {u : Table K V d} {chain' : Nat → List (Slot K V)} (arranged : Arranged P t free chain)
    (within : Within t u) (count : u.numItems = t.numItems) (layout : Layout P u free [o] chain' []) :
    Arranged P (u.deallocateNode o) (free ++ [o]) chain' where
  layout := layout.deallocate
  pos := within.nodes ▸ arranged.pos
  count := by
    have total := arranged.count
    have less : (u.deallocateNode o).numItems = u.numItems - 1 := rfl
    have nodes : (u.deallocateNode o).numNodes = t.numNodes := within.nodes
    rw [less, count, nodes, List.length_append, List.length_singleton]
    push_cast
    omega
  stale o' beyond := by
    have le : o ≤ u.numNodes := (layout.pos (by simp)).2
    have beyond' : u.numNodes < o' := beyond
    rw [(Table.same_of_mem ((layout.within_deallocate le).beyond o' beyond')).1,
      (Table.same_of_mem (within.beyond o' (within.nodes ▸ beyond'))).1]
    exact arranged.stale o' (within.nodes ▸ beyond')

variable {s : Slot K V}

theorem Layout.slotOf_eq_some (layout : Layout P t free [] chain []) (pos : 1 ≤ o) (le : o ≤ t.numNodes) :
    slotOf t o = some s ↔ s.1 = o ∧ ∃ h ≤ t.numNodes, s ∈ chain h := by
  constructor
  · intro slot
    have mem : s ∈ slotsOf t [o] := by simp [slotsOf, slot]
    obtain ⟨at_, used, item⟩ := item_of_mem_slotsOf mem
    rw [List.mem_singleton.1 at_] at used item
    obtain ⟨h, le', s', mem', rfl⟩ := layout.slot_of_tag pos le used
    have same : s = s' := Prod.ext (List.mem_singleton.1 at_)
      (Option.some.inj (item.symm.trans ((layout.chains h le').item_eq mem')))
    exact ⟨List.mem_singleton.1 at_, h, le', same ▸ mem'⟩
  · rintro ⟨rfl, h, le', mem⟩
    obtain ⟨used, item⟩ := layout.used (mem_inChains.2 ⟨h, Nat.lt_succ_of_le le', mem⟩)
    exact slotOf_used used item

theorem Filled.slotOf_none (filled : Filled t) (pos : 1 ≤ o) (le : o ≤ t.numNodes) :
    slotOf t o = none ↔ t.tag o = .empty := by
  constructor
  · intro none_
    by_contra used
    obtain ⟨x, item⟩ := filled o pos le used
    cases none_.symm.trans (slotOf_used used item)
  · exact slotOf_empty

theorem getNextOffset_congr (filled : Filled t) (filled' : Filled t') (nodes : t'.numNodes = t.numNodes)
    (same : ∀ o', o < o' → o' ≤ t.numNodes → slotOf t' o' = slotOf t o') :
    t'.getNextOffset o = t.getNextOffset o := by
  have probe : t'.probeOffset o = t.probeOffset o := by rw [Table.probeOffset, Table.probeOffset, nodes]
  have offsets : t'.offsetsFrom (t.probeOffset o) = t.offsetsFrom (t.probeOffset o) := by
    rw [Table.offsetsFrom, Table.offsetsFrom, nodes]
  rw [Table.getNextOffset, Table.getNextOffset, probe, offsets]
  refine congrArg (Option.getD · 0) (List.find?_congr fun o' mem => ?_)
  have after := lt_of_mem_probe mem
  have empty : t'.tag o' = .empty ↔ t.tag o' = .empty := by
    have pos : 1 ≤ o' := by omega
    rw [← filled'.slotOf_none pos (nodes ▸ after.2), ← filled.slotOf_none pos after.2, same o' after.1 after.2]
  simp [Table.isEmpty, empty]

structure Progress (t t' : Table K V d) (o : Nat) (x : K × V) (it : Nat) : Prop where
  behind : ((slotsOf t' (behind t' it)).map Prod.snd).Perm ((slotsOf t (behind t o)).map Prod.snd)
  ahead : ((slotsOf t (t.offsetsFrom o)).map Prod.snd).Perm (x :: (slotsOf t' (t'.offsetsFrom it)).map Prod.snd)
  used : it ≠ 0 → it ≤ t'.numNodes ∧ t'.tag it ≠ .empty

theorem slotsOf_same {offsets : List Nat} (same : ∀ o ∈ offsets, slotOf t' o = slotOf t o) :
    slotsOf t' offsets = slotsOf t offsets := List.filterMap_congr same

theorem slotsOf_vacate {offsets : List Nat} (nodup : offsets.Nodup) (mem : p ∈ offsets)
    (source : slotOf t p = some (p, y)) (gone : slotOf t' p = none)
    (same : ∀ o ∈ offsets, o ≠ p → slotOf t' o = slotOf t o) :
    ((slotsOf t offsets).map Prod.snd).Perm (y :: (slotsOf t' offsets).map Prod.snd) := by
  obtain ⟨before, after, rfl⟩ := List.append_of_mem mem
  rw [List.nodup_middle, List.nodup_cons] at nodup
  have kept : ∀ o ∈ before ++ after, slotOf t' o = slotOf t o := by
    intro o mem'
    refine same o ?_ fun eq => nodup.1 (eq ▸ mem')
    simp only [List.mem_append, List.mem_cons] at mem' ⊢
    tauto
  have new : slotsOf t' (before ++ p :: after) = slotsOf t (before ++ after) := by
    rw [← slotsOf_same kept, slotsOf_append, slotsOf_append, slotsOf, slotsOf, slotsOf, List.filterMap_cons_none gone]
  have old : slotsOf t (before ++ p :: after) = slotsOf t before ++ (p, y) :: slotsOf t after := by
    rw [slotsOf_append, slotsOf, slotsOf, List.filterMap_cons_some source]
    rfl
  rw [new, old, slotsOf_append, List.map_append, List.map_cons, List.map_append]
  exact List.perm_middle

theorem slots_ahead (pos : 1 ≤ o) (le : o ≤ t.numNodes) (at_ : slotOf t o = some (o, x)) :
    slotsOf t (t.offsetsFrom o) = (o, x) :: slotsOf t (List.range' (o + 1) (t.numNodes - o)) := by
  rw [offsetsFrom_eq pos le, slotsOf, List.filterMap_cons_some at_]
  rfl

theorem used_of_slotOf (slot : slotOf t o = some s) : t.tag o ≠ .empty := fun empty => by
  cases slot.symm.trans (slotOf_empty empty)

section
variable {it : Nat} (nodes : t'.numNodes = t.numNodes) (pos : 1 ≤ o) (le : o ≤ t.numNodes)
  (at_ : slotOf t o = some (o, x))
include nodes pos le at_

theorem progress_drop (advanced : Advanced t' o it) (gone : slotOf t' o = none)
    (same : ∀ o' ≠ o, 1 ≤ o' → o' ≤ t.numNodes → slotOf t' o' = slotOf t o') : Progress t t' o x it := by
  refine ⟨?_, ?_, fun some_ => (advanced.used some_).2⟩
  · have kept : slotsOf t' (behind t o) = slotsOf t (behind t o) := slotsOf_same fun o' mem => by
      obtain ⟨pos', lt⟩ := (mem_behind pos).1 mem
      exact same o' (by omega) pos' (by omega)
    have none_ : slotsOf t' [o] = [] := List.filterMap_cons_none gone
    rw [advanced.behind, upTo_eq (t := t) pos, slotsOf_append, kept, none_, List.append_nil]
  · have kept : slotsOf t' (List.range' (o + 1) (t.numNodes - o)) = slotsOf t (List.range' (o + 1) (t.numNodes - o)) :=
      slotsOf_same fun o' mem => by
        rw [List.mem_range'_1] at mem
        exact same o' (by omega) (by omega) (by omega)
    rw [advanced.ahead, nodes, kept, slots_ahead pos le at_]
    rfl

variable (source : slotOf t p = some (p, y)) (gone : slotOf t' p = none) (taken : slotOf t' o = some (o, y))
  (same : ∀ o' ≠ o, o' ≠ p → 1 ≤ o' → o' ≤ t.numNodes → slotOf t' o' = slotOf t o')
include source gone taken same

theorem progress_pull_seen (pos' : 1 ≤ p) (lt : p < o) (advanced : Advanced t' o it) : Progress t t' o x it := by
  refine ⟨?_, ?_, fun some_ => (advanced.used some_).2⟩
  · have nodup : (behind t o).Nodup := by
      rw [behind, if_neg (by omega)]
      exact List.nodup_range'
    have moved := slotsOf_vacate nodup ((mem_behind pos).2 ⟨pos', lt⟩) source gone fun o' mem other => by
      obtain ⟨pos'', lt'⟩ := (mem_behind pos).1 mem
      exact same o' (by omega) other pos'' (by omega)
    have one : slotsOf t' [o] = [(o, y)] := List.filterMap_cons_some taken
    rw [advanced.behind, upTo_eq (t := t) pos, slotsOf_append, one, List.map_append]
    exact (List.perm_append_singleton y _).trans moved.symm
  · have kept : slotsOf t' (List.range' (o + 1) (t.numNodes - o)) = slotsOf t (List.range' (o + 1) (t.numNodes - o)) :=
      slotsOf_same fun o' mem => by
        rw [List.mem_range'_1] at mem
        exact same o' (by omega) (by omega) (by omega) (by omega)
    rw [advanced.ahead, nodes, kept, slots_ahead pos le at_]
    rfl

theorem progress_pull_unseen (lt : o < p) (le' : p ≤ t.numNodes) : Progress t t' o x o := by
  have behind_eq : behind t' o = behind t o := by
    rw [behind, behind, if_neg (by omega), if_neg (by omega)]
  refine ⟨?_, ?_, fun _ => ⟨nodes ▸ le, used_of_slotOf taken⟩⟩
  · rw [behind_eq, slotsOf_same fun o' mem => ?_]
    obtain ⟨pos', lt'⟩ := (mem_behind pos).1 mem
    exact same o' (by omega) (by omega) pos' (by omega)
  · have mem : p ∈ List.range' (o + 1) (t.numNodes - o) := by
      rw [List.mem_range'_1]
      omega
    have moved := slotsOf_vacate List.nodup_range' mem source gone fun o' mem other => by
      rw [List.mem_range'_1] at mem
      exact same o' (by omega) other (by omega) (by omega)
    rw [slots_ahead pos le at_, slots_ahead pos (nodes ▸ le) taken, nodes]
    exact moved.cons x

end

theorem mem_update_chain {c : List (Slot K V)} {n : Nat} (le : h ≤ n) :
    (∃ h' ≤ n, s ∈ update chain h c h') ↔ s ∈ c ∨ ∃ h' ≤ n, h' ≠ h ∧ s ∈ chain h' := by
  constructor
  · rintro ⟨h', le', mem⟩
    rcases eq_or_ne h' h with rfl | other
    · rw [update_self] at mem
      exact .inl mem
    · rw [update_of_ne other] at mem
      exact .inr ⟨h', le', other, mem⟩
  · rintro (mem | ⟨h', le', other, mem⟩)
    · exact ⟨h, le, by rwa [update_self]⟩
    · exact ⟨h', le', by rwa [update_of_ne other]⟩

section
variable (layout : Layout P t free [] chain [])
include layout

theorem Layout.slotOf_update {free' : List Nat} {c : List (Slot K V)}
    (layout' : Layout P t' free' [] (update chain h c) []) (nodes : t'.numNodes = t.numNodes)
    (le : h ≤ t.numNodes) (pos : 1 ≤ o) (le' : o ≤ t.numNodes) (same : ∀ x, (o, x) ∈ c ↔ (o, x) ∈ chain h) :
    slotOf t' o = slotOf t o := by
  refine Option.ext fun s => ?_
  rw [layout.slotOf_eq_some pos le', layout'.slotOf_eq_some pos (nodes ▸ le'), nodes]
  refine and_congr_right ?_
  rintro rfl
  rw [mem_update_chain le, same s.2, ← mem_update_chain le, update_eq_self]

theorem Layout.slot_of_mem (le : h ≤ t.numNodes) (mem : s ∈ chain h) : slotOf t s.1 = some s := by
  have pos := layout.node_pos le mem
  exact (layout.slotOf_eq_some pos.1 pos.2).2 ⟨rfl, h, le, mem⟩

theorem Layout.slotOf_free (mem : o ∈ free) : slotOf t o = none := slotOf_empty (layout.idle o mem)

end

structure Erased (P : Params K V) (t : Table K V d) (o : Nat) (x : K × V) (it : Nat) (t' : Table K V d) : Prop where
  wellFormed : WellFormed P t'
  within : Within t t'
  progress : Progress t t' o x it

section
variable (arranged : Arranged P t free chain) (le : h ≤ t.numNodes)
include arranged le

theorem Arranged.erase_inner [DecidableEq K]
    (eq : chain h = before ++ (o, x) :: (p, y) :: after) (next : t.next o = p) :
    ∃ it t', t.eraseIterator P o = some (it, t') ∧ Erased P t o x it t' := by
  have layout := arranged.layout
  have mem : (o, x) ∈ chain h := by simp [eq]
  have mem' : (p, y) ∈ chain h := by simp [eq]
  have here := layout.node_pos le mem
  have there := layout.node_pos le mem'
  have at_ := layout.slot_of_mem le mem
  have source := layout.slot_of_mem le mem'
  have nodup := layout.chain_nodup le
  rw [eq] at nodup
  have apart : o ≠ p := by
    rintro rfl
    simp [List.nodup_append] at nodup
  have pulled := layout.pull le eq
  have within : Within t ((t.moveFrom o p).setNext o (t.next p)) := by
    rw [Table.moveFrom_eq ((layout.chains h le).item_eq mem')]
    exact ((Within.refl t).setItem here.2 y).setNext here.2 _
  have within' : Within t (((t.moveFrom o p).setNext o (t.next p)).deallocateNode p) :=
    within.trans (pulled.within_deallocate there.2)
  have arranged' := arranged.deallocate within rfl pulled
  have layout' := arranged'.layout
  have taken := layout'.slot_of_mem (h := h) (s := (o, y)) le (by simp)
  have gone := layout'.slotOf_free (o := p) (by simp)
  have same : ∀ o' ≠ o, o' ≠ p → 1 ≤ o' → o' ≤ t.numNodes →
      slotOf (((t.moveFrom o p).setNext o (t.next p)).deallocateNode p) o' = slotOf t o' := by
    intro o' other other' pos' le'
    refine layout.slotOf_update layout' rfl le pos' le' fun z => ?_
    rw [eq]
    simp [other, other']
  have erase : t.eraseIterator P o = some
      (if p < o then (((t.moveFrom o p).setNext o (t.next p)).deallocateNode p).getNextOffset o else o,
        ((t.moveFrom o p).setNext o (t.next p)).deallocateNode p) := by
    have used : t.isEmpty o = false := decide_eq_false (used_of_slotOf at_)
    have more : p ≠ 0 := by omega
    simp only [Table.eraseIterator, next, used, guard]
    rw [if_pos ⟨by omega, rfl⟩, if_pos more]
    simp only [Table.next_moveFrom]
    rfl
  refine ⟨_, _, erase, ⟨_, _, arranged'⟩, within', ?_⟩
  by_cases lt : p < o
  · rw [if_pos lt]
    exact progress_pull_seen rfl here.1 here.2 at_ source gone taken same there.1 lt (getNextOffset_advanced here.2)
  · rw [if_neg lt]
    exact progress_pull_unseen rfl here.1 here.2 at_ source gone taken same (by omega) there.2

theorem Arranged.erase_last {u : Table K V d}
    (eq : chain h = before ++ [(o, x)]) (within : Within t u) (count : u.numItems = t.numItems)
    (unlinked : Layout P u free [o] (update chain h before) []) :
    Erased P t o x (t.getNextOffset o) (u.deallocateNode o) := by
  have layout := arranged.layout
  have mem : (o, x) ∈ chain h := by simp [eq]
  have here := layout.node_pos le mem
  have within' := within.trans (unlinked.within_deallocate (within.nodes ▸ here.2))
  have arranged' := arranged.deallocate within count unlinked
  have same : ∀ o' ≠ o, 1 ≤ o' → o' ≤ t.numNodes → slotOf (u.deallocateNode o) o' = slotOf t o' := by
    intro o' other pos' le'
    refine layout.slotOf_update arranged'.layout within'.nodes le pos' le' fun z => ?_
    rw [eq]
    simp [other]
  have next : (u.deallocateNode o).getNextOffset o = t.getNextOffset o :=
    getNextOffset_congr layout.filled arranged'.layout.filled within'.nodes fun o' lt le' =>
      same o' (by omega) (by omega) le'
  rw [← next]
  exact ⟨⟨_, _, arranged'⟩, within', progress_drop within'.nodes here.1 here.2 (layout.slot_of_mem le mem)
    (getNextOffset_advanced (within'.nodes ▸ here.2)) (arranged'.layout.slotOf_free (by simp)) same⟩

end

theorem WellFormed.eraseIterator [DecidableEq K] (wellFormed : WellFormed P t) (pos : 1 ≤ o) (le : o ≤ t.numNodes)
    (used : t.tag o ≠ .empty) : ∃ x it t', t.item o = some x ∧ t.eraseIterator P o = some (it, t') ∧
      Erased P t o x it t' := by
  obtain ⟨free, chain, arranged⟩ := wellFormed
  have layout := arranged.layout
  obtain ⟨h, le', ⟨o, x⟩, mem, rfl⟩ := layout.slot_of_tag pos le used
  obtain ⟨before, after, eq, first, -, item, rest⟩ := layout.cut le' mem
  refine ⟨x, ?_⟩
  cases after with
  | cons s after =>
    obtain ⟨it, t', erase, erased⟩ := arranged.erase_inner le' eq rest.1
    exact ⟨it, t', item, erase, erased⟩
  | nil =>
    have last : t.next o = 0 := rest
    have head : t.hashHead P x.1 = h := (layout.chains h le').placed (o, x) mem
    have erase : t.eraseIterator P o = if o ≠ h then do
        let prev ← t.findNodeBefore h o
        return (t.getNextOffset o, (t.setNext prev 0).deallocateNode o)
        else some (t.getNextOffset o, t.deallocateNode o) := by
      have used' : t.isEmpty o = false := decide_eq_false used
      have item' : t.item o = some x := item
      have some_ : o ≠ 0 := Nat.ne_of_gt pos
      simp only [Table.eraseIterator, last, used', guard]
      rw [if_pos ⟨some_, rfl⟩, if_neg (by simp), item']
      simp [head]
    rw [erase]
    rcases List.eq_nil_or_concat before with rfl | ⟨before, b, rfl⟩
    · -- The chain is only this node, its hash head.
      have same : h = o := first
      rw [if_neg (not_not_intro same.symm)]
      exact ⟨_, _, item, rfl, arranged.erase_last le' eq (Within.refl t) rfl (layout.unhead le' eq)⟩
    · rw [List.concat_eq_append] at eq first
      have nodup := layout.chain_nodup le'
      have length := layout.length_le le'
      rw [eq] at nodup length
      have fresh : o ∉ (before ++ [b]).map Prod.fst := by
        rw [List.map_append, List.map_singleton, List.nodup_append] at nodup
        exact fun mem => nodup.2.2 o mem o (List.mem_singleton_self o) rfl
      have other : o ≠ h := by
        rintro rfl
        refine fresh ?_
        cases before with
        | nil => simp [first.1]
        | cons s before => simp [first.1]
      have inside : b ∈ chain h := by simp [eq]
      have le_b := (layout.node_pos le' inside).2
      have found : t.findNodeBefore h o = some b.1 := by
        refine Table.nodeBefore_path first fresh ?_
        rw [List.length_append, List.length_singleton] at length
        omega
      rw [if_pos other, found]
      exact ⟨_, _, item, rfl, arranged.erase_last le' eq ((Within.refl t).setNext le_b 0) rfl (layout.unlink le' eq)⟩

theorem contents_eq {it : Nat} (le : it ≤ t.numNodes) :
    contents t = (slotsOf t (behind t it)).map Prod.snd ++ (slotsOf t (t.offsetsFrom it)).map Prod.snd := by
  rw [contents, ← behind_append_ahead le, slotsOf_append, List.map_append]

theorem Erased.contents {it : Nat} (erased : Erased P t o x it t') (le : o ≤ t.numNodes) :
    (contents t).Perm (x :: contents t') := by
  have progress := erased.progress
  have le' : it ≤ t'.numNodes := by
    by_cases end_ : it = 0
    · omega
    · exact (progress.used end_).1
  rw [contents_eq le, contents_eq le']
  exact (progress.behind.symm.append progress.ahead).trans List.perm_middle

/-- `while (it != end()) it = pred(*it) ? erase(it) : ++it`, with the items that `pred` is asked about. -/
def eraseWhere [DecidableEq K] (P : Params K V) (pred : K × V → Bool) :
    Nat → Nat → Table K V d → Option (List (K × V) × Table K V d)
  | _, 0, t => some ([], t)
  | 0, _ + 1, _ => none
  | n + 1, o + 1, t => do
    let x ← t.item (o + 1)
    let (it, t) ← if pred x then t.eraseIterator P (o + 1) else some (t.getNextOffset (o + 1), t)
    let (asked, t) ← eraseWhere P pred n it t
    return (x :: asked, t)

theorem WellFormed.eraseWhere_from [DecidableEq K] {n it : Nat} (wellFormed : WellFormed P t) (pred : K × V → Bool)
    (used : it ≠ 0 → it ≤ t.numNodes ∧ t.tag it ≠ .empty) (enough : (slotsOf t (t.offsetsFrom it)).length ≤ n) :
    ∃ asked t', eraseWhere P pred n it t = some (asked, t') ∧ WellFormed P t' ∧
      asked.Perm ((slotsOf t (t.offsetsFrom it)).map Prod.snd) ∧
      ((slotsOf t' t'.offsets).map Prod.snd).Perm ((slotsOf t (behind t it)).map Prod.snd ++
        ((slotsOf t (t.offsetsFrom it)).map Prod.snd).filter fun x => !pred x) := by
  induction n generalizing t it with
  | zero =>
    cases it with
    | zero => exact ⟨[], t, rfl, wellFormed, .nil, List.Perm.of_eq (List.append_nil _).symm⟩
    | succ o =>
      obtain ⟨le, used⟩ := used (Nat.succ_ne_zero o)
      obtain ⟨x, -, ahead⟩ := wellFormed.filled.ahead (Nat.succ_pos o) le used
      rw [ahead] at enough
      cases enough
  | succ n ih =>
    cases it with
    | zero => exact ⟨[], t, rfl, wellFormed, .nil, List.Perm.of_eq (List.append_nil _).symm⟩
    | succ o =>
      have pos : 1 ≤ o + 1 := Nat.succ_pos o
      obtain ⟨le, used⟩ := used (Nat.succ_ne_zero o)
      obtain ⟨x, it, t', item, erase, erased⟩ := wellFormed.eraseIterator pos le used
      cases wanted : pred x with
      | true =>
        have fewer := erased.progress.ahead.length_eq
        rw [List.length_cons, List.length_map, List.length_map] at fewer
        obtain ⟨asked, t'', loop, wellFormed'', all, left⟩ :=
          ih erased.wellFormed erased.progress.used (by omega)
        refine ⟨x :: asked, t'', ?_, wellFormed'', (all.cons x).trans erased.progress.ahead.symm, left.trans ?_⟩
        · rw [eraseWhere, item, Option.bind_eq_bind, Option.bind_some, if_pos wanted, erase]
          simp only [Option.bind_eq_bind, Option.bind_some, loop]
          rfl
        · refine erased.progress.behind.append ?_
          have rest := erased.progress.ahead.filter fun x => !pred x
          rw [List.filter_cons_of_neg (by simp [wanted])] at rest
          exact rest.symm
      | false =>
        have next := getNextOffset_advanced le
        have ahead := slots_ahead pos le (slotOf_used used item)
        have before : slotsOf t (behind t (t.getNextOffset (o + 1))) = slotsOf t (behind t (o + 1)) ++ [(o + 1, x)] := by
          have one : slotsOf t [o + 1] = [(o + 1, x)] := List.filterMap_cons_some (slotOf_used used item)
          rw [next.behind, upTo_eq (t := t) pos, slotsOf_append, one]
        rw [ahead, ← next.ahead] at enough
        obtain ⟨asked, t'', loop, wellFormed'', all, left⟩ :=
          ih wellFormed (fun some_ => (next.used some_).2) (Nat.le_of_succ_le_succ enough)
        rw [ahead, ← next.ahead]
        refine ⟨x :: asked, t'', ?_, wellFormed'', all.cons x, left.trans ?_⟩
        · rw [eraseWhere, item, Option.bind_eq_bind, Option.bind_some, if_neg (by simp [wanted])]
          simp only [Option.bind_eq_bind, Option.bind_some, loop]
          rfl
        · have kept (rest : List (Slot K V)) : (((o + 1, x) :: rest).map Prod.snd).filter (fun x => !pred x) =
              x :: (rest.map Prod.snd).filter fun x => !pred x := List.filter_cons_of_pos (by simp [wanted])
          rw [before, List.map_append, List.append_assoc, kept]
          exact .refl _

/-- `it = begin()` and the loop: every item is asked about once, and those that `pred` does not want stay. -/
theorem erase_while_iterating [DecidableEq K] (pred : K × V → Bool) (wellFormed : WellFormed P t) :
    ∃ xs asked t' xs', t.entries = some xs ∧ eraseWhere P pred t.numNodes (t.getNextOffset 0) t = some (asked, t') ∧
      asked.Perm xs ∧ t'.entries = some xs' ∧ xs'.Perm (xs.filter fun x => !pred x) ∧ WellFormed P t' ∧
      ((xs.map Prod.fst).Nodup → (xs'.map Prod.fst).Nodup) := by
  have start := getNextOffset_advanced (Nat.zero_le t.numNodes)
  have all : slotsOf t (t.offsetsFrom (t.getNextOffset 0)) = slotsOf t t.offsets := start.ahead
  have none_ : slotsOf t (behind t (t.getNextOffset 0)) = [] := start.behind
  have enough : (slotsOf t t.offsets).length ≤ t.numNodes := (length_slotsOf_le _).trans_eq (List.length_range' ..)
  obtain ⟨asked, t', loop, wellFormed', every, left⟩ :=
    wellFormed.eraseWhere_from pred (fun some_ => (start.used some_).2) (all ▸ enough)
  rw [all] at every left
  rw [none_] at left
  refine ⟨contents t, asked, t', contents t', wellFormed.entries, loop, every, wellFormed'.entries, left, wellFormed',
    fun nodup => ?_⟩
  have kept := (List.filter_sublist (p := fun x => !pred x) (l := contents t)).map Prod.fst
  exact (left.map Prod.fst).nodup_iff.2 (kept.nodup nodup)

def fourNodes : Table Nat Nat plain.doubles :=
  Table.initializeNodes ⟨fun _ => Node.zero, 4, plain.doubles.one, 0, 0⟩

theorem fourNodes_wellFormed : WellFormed plain fourNodes :=
  ⟨_, _, initializeNodes_arranged (by decide) fun _ _ => rfl⟩

theorem erase_while_iterating_three : ∃ (t : Table Nat Nat plain.doubles) (asked : List (Nat × Nat))
    (t' : Table Nat Nat plain.doubles),
    [(1, 10), (5, 50), (2, 20)].foldlM (fun t x => do return (← t.place plain x).2) fourNodes = some t ∧
    eraseWhere plain (fun x => x.1 < 3) t.numNodes (t.getNextOffset 0) t = some (asked, t') ∧
    asked.Perm [(1, 10), (5, 50), (2, 20)] ∧ t'.entries = some [(5, 50)] := by
  have nothing : contents fourNodes = [] := by decide
  obtain ⟨t, filled, wellFormed, -, perm⟩ := fourNodes_wellFormed.place_all [(1, 10), (5, 50), (2, 20)] (by decide)
  rw [nothing, List.append_nil] at perm
  obtain ⟨xs, asked, t', xs', entries, loop, every, entries', left, -⟩ :=
    erase_while_iterating (fun x => x.1 < 3) wellFormed
  rw [wellFormed.entries, Option.some.injEq] at entries
  subst entries
  have one : xs' = [(5, 50)] := List.perm_singleton.1 (left.trans (perm.filter _))
  exact ⟨t, asked, t', filled, loop, every.trans perm, one ▸ entries'⟩

end Prpc.PoolHashTable
