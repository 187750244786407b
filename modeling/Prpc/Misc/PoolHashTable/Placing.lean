import Prpc.Misc.PoolHashTable.Chains

/-!
An item whose hash head holds an item of another chain takes that node: the items of the other chain
from there on move one node further.
-/

namespace Prpc.PoolHashTable
open Lib
open Function (update update_self update_of_ne)

variable {K V : Type} {d : Doubles} {P : Params K V} {t t' : Table K V d} {c : List (Slot K V)}
  {s : Slot K V} {o probe : Nat}

def slide : List (Slot K V) → Nat → List (Slot K V)
  | [], _ => []
  | [s], probe => [(probe, s.2)]
  | s :: s' :: c, probe => (s'.1, s.2) :: slide (s' :: c) probe

theorem slide_concat (c : List (Slot K V)) (s : Slot K V) (probe : Nat) :
    slide (c ++ [s]) probe = slide c s.1 ++ [(probe, s.2)] := by
  induction c with
  | nil => rfl
  | cons s' c ih =>
    cases c with
    | nil => rfl
    | cons s'' c => exact congrArg (List.cons (s''.1, s'.2)) ih

theorem map_snd_slide (c : List (Slot K V)) (probe : Nat) :
    (slide c probe).map Prod.snd = c.map Prod.snd := by
  induction c with
  | nil => rfl
  | cons s c ih =>
    cases c with
    | nil => rfl
    | cons s' c => exact congrArg (List.cons s.2) ih

theorem map_fst_slide (s : Slot K V) (c : List (Slot K V)) (probe : Nat) :
    (slide (s :: c) probe).map Prod.fst = c.map Prod.fst ++ [probe] := by
  induction c generalizing s with
  | nil => rfl
  | cons s' c ih => exact congrArg (List.cons s'.1) (ih s')

theorem mem_of_mem_slide (mem : o ∈ (slide c probe).map Prod.fst) : o ∈ c.map Prod.fst ∨ o = probe := by
  cases c with
  | nil => cases mem
  | cons s c =>
    rw [map_fst_slide] at mem
    rcases List.mem_append.1 mem with mem | mem
    · exact .inl (List.mem_cons_of_mem _ mem)
    · exact .inr (List.mem_singleton.1 mem)

theorem path_slide {next : Nat → Nat} {item item' : Nat → Option (K × V)}
    (path : Path next item s.1 (s :: c) probe) (last : next probe = 0)
    (items : ∀ e ∈ slide (s :: c) probe, item' e.1 = some e.2) :
    Path next item' (next s.1) (slide (s :: c) probe) 0 := by
  induction c generalizing s with
  | nil =>
    obtain ⟨-, -, at_⟩ := path
    exact ⟨at_, items _ (List.mem_singleton_self _), last⟩
  | cons s' c ih =>
    obtain ⟨-, -, at_, rest⟩ := path
    exact ⟨at_, items _ (List.mem_cons_self ..), ih ⟨rfl, rest⟩ fun e mem =>
      items e (List.mem_cons_of_mem _ mem)⟩

namespace Table

theorem shift_concat (c : List (Slot K V)) (s : Slot K V) : t.shift probe ((c ++ [s]).map Prod.fst).reverse =
      (t.moveFrom probe s.1).shift s.1 (c.map Prod.fst).reverse := by
  rw [List.map_append, List.reverse_append]
  rfl

theorem shift_fields (back : List Nat) : (t.shift probe back).numNodes = t.numNodes ∧
    (t.shift probe back).maxLoadFactor = t.maxLoadFactor ∧
    (t.shift probe back).maxNumItems = t.maxNumItems ∧
    (t.shift probe back).numItems = t.numItems ∧
    (t.shift probe back).next = t.next ∧ (t.shift probe back).tag = t.tag := by
  induction back generalizing t probe with
  | nil => exact ⟨rfl, rfl, rfl, rfl, rfl, rfl⟩
  | cons o back ih =>
    obtain ⟨nodes, factor, limit, count, next, tag⟩ := @ih (t.moveFrom probe o) o
    exact ⟨nodes, factor, limit, count, next.trans (next_moveFrom ..), tag.trans (tag_moveFrom ..)⟩

theorem shift_spec (nodup : (c.map Prod.fst ++ [probe]).Nodup)
    (items : ∀ s ∈ c, t.item s.1 = some s.2) :
    (∀ s ∈ slide c probe, (t.shift probe (c.map Prod.fst).reverse).item s.1 = some s.2) ∧
    ∀ o ∉ (slide c probe).map Prod.fst, (t.shift probe (c.map Prod.fst).reverse).mem o = t.mem o := by
  induction c using List.reverseRecOn generalizing t probe with
  | nil => exact ⟨nofun, fun _ _ => rfl⟩
  | append_singleton c s ih =>
    rw [List.map_append, List.map_singleton] at nodup
    have apart : probe ∉ c.map Prod.fst ∧ probe ≠ s.1 := by grind
    obtain ⟨moved, kept⟩ := @ih (t.moveFrom probe s.1) s.1 nodup.of_append_left
      fun s' mem => by
        have ne : s'.1 ≠ probe := by
          rintro rfl
          exact apart.1 (List.mem_map_of_mem mem)
        rw [item_moveFrom, update_of_ne ne]
        exact items s' (List.mem_append_left _ mem)
    rw [shift_concat, slide_concat]
    refine ⟨fun s' mem => ?_, fun o out => ?_⟩
    · rcases List.mem_append.1 mem with mem | mem
      · exact moved s' mem
      · rw [List.mem_singleton.1 mem]
        have out : probe ∉ (slide c s.1).map Prod.fst := fun mem =>
          (mem_of_mem_slide mem).elim apart.1 apart.2
        rw [(same_of_mem (kept probe out)).2.2.2, item_moveFrom, update_self]
        exact items s (by simp)
    · rw [List.map_append, List.mem_append, not_or] at out
      rw [kept o out.1]
      exact mem_setBody _ (by simpa using out.2)

end Table

section
variable {free : List Nat} {chain : Nat → List (Slot K V)} {h : Nat} {b z : Slot K V}
  {before after : List (Slot K V)}

structure Shifted (t u : Table K V d) (h probe : Nat) (before : List (Slot K V)) (s : Slot K V)
    (after : List (Slot K V)) : Prop where
  within : Within t u
  count : u.numItems = t.numItems
  tag : u.tag = t.tag
  front : Path u.next u.item h before s.1
  back : Path u.next u.item (u.next s.1) (slide (s :: after) probe) 0
  same : ∀ o ∉ (s :: after).map Prod.fst, o ≠ probe → u.mem o = t.mem o

theorem Layout.shifted (layout : Layout P t free [probe] chain []) (le : h ≤ t.numNodes)
    (eq : chain h = before ++ s :: after) (last : s :: after = c ++ [z]) (stop : t.next probe = 0) :
    Shifted t ((t.setNext z.1 probe).shift probe ((s :: after).map Prod.fst).reverse) h probe before s after := by
  have chained := layout.chains h le
  have nodup := layout.chain_nodup le
  have apart : probe ∉ (chain h).map Prod.fst := by
    intro mem
    obtain ⟨s', mem, at_⟩ := List.mem_map.1 mem
    exact (layout.chain_apart le mem).2.2.1 (at_ ▸ List.mem_singleton_self _)
  rw [eq, List.map_append] at nodup apart
  rw [List.mem_append, not_or] at apart
  obtain ⟨nodup_before, nodup_moved, disjoint⟩ := List.nodup_append.1 nodup
  rw [eq] at chained
  obtain ⟨m, first, at_, rest⟩ := path_append.1 (chained.path (by simp))
  rw [at_] at first
  have path : Path t.next t.item s.1 (s :: after) 0 := ⟨rfl, rest⟩
  have z_mem : z.1 ∈ (s :: after).map Prod.fst := by
    rw [last]
    exact List.mem_map_of_mem (by simp)
  have distinct : ((s :: after).map Prod.fst ++ [probe]).Nodup := by
    refine List.nodup_append.2 ⟨nodup_moved, List.nodup_singleton _, fun o mem o' mem' same => ?_⟩
    rw [List.mem_singleton.1 mem'] at same
    exact apart.2 (same ▸ mem)
  obtain ⟨nodes, factor, limit, count, next, tag⟩ :=
    @Table.shift_fields K V d (t.setNext z.1 probe) probe ((s :: after).map Prod.fst).reverse
  obtain ⟨moved, kept⟩ := Table.shift_spec (t := t.setNext z.1 probe) distinct fun s' mem => by
    rw [Table.item_setNext]
    exact path.item_eq mem
  have same : ∀ o ∉ (s :: after).map Prod.fst, o ≠ probe →
      ((t.setNext z.1 probe).shift probe ((s :: after).map Prod.fst).reverse).mem o = t.mem o := by
    intro o out other
    rw [kept o fun mem => (mem_of_mem_slide mem).elim out other]
    exact Table.mem_setWord _ _ fun eq => out (eq ▸ z_mem)
  refine ⟨⟨nodes, factor, limit, fun o beyond => same o (fun mem => ?_) ?_⟩, count, tag.trans (Table.tag_setNext ..),
    first.congr fun s' mem => ?_, ?_, same⟩
  · obtain ⟨s', mem', rfl⟩ := List.mem_map.1 mem
    have inside := (layout.node_pos le (eq ▸ List.mem_append_right before mem')).2
    omega
  · have inside := (layout.pos (o := probe) (by simp)).2
    omega
  · have mem' : s'.1 ∈ before.map Prod.fst := List.mem_map_of_mem mem
    have kept' := Table.same_of_mem (same s'.1 (fun mem => disjoint _ mem' _ mem rfl) fun eq => apart.1 (eq ▸ mem'))
    exact ⟨kept'.2.1, kept'.2.2.2⟩
  · have joined : Path (t.setNext z.1 probe).next t.item s.1 (s :: after) probe := by
      rw [Table.next_setNext, last]
      rw [last] at path nodup_moved
      exact path.redirect nodup_moved
    have other : probe ≠ z.1 := fun eq => apart.2 (eq ▸ z_mem)
    have stop' : (t.setNext z.1 probe).next probe = 0 := by
      rw [Table.next_setNext, update_of_ne other]
      exact stop
    rw [next]
    exact path_slide joined stop' moved

theorem mem_slide {e : Slot K V} (mem : e ∈ slide (s :: after) probe) :
    (e.1 ∈ after.map Prod.fst ∨ e.1 = probe) ∧ ∃ s' ∈ s :: after, s'.2 = e.2 := by
  have node : e.1 ∈ (slide (s :: after) probe).map Prod.fst := List.mem_map_of_mem mem
  have item : e.2 ∈ (slide (s :: after) probe).map Prod.snd := List.mem_map_of_mem mem
  rw [map_fst_slide, List.mem_append, List.mem_singleton] at node
  rw [map_snd_slide] at item
  exact ⟨node, List.mem_map.1 item⟩

theorem Layout.displace {u : Table K V d} (layout : Layout P t free [probe] chain []) (le : h ≤ t.numNodes)
    (eq : chain h = before ++ [b] ++ s :: after) (tag : t.tag probe = .probe)
    (shifted : Shifted t u h probe (before ++ [b]) s after) : Layout P (u.setNext b.1 (u.next s.1)) free [s.1]
      (update chain h (before ++ [b] ++ slide (s :: after) probe)) [] := by
  have chained := layout.chains h le
  have nodup := layout.chain_nodup le
  have apart : ∀ s' ∈ chain h, s'.1 ≠ probe := by
    intro s' mem same
    exact (layout.chain_apart le mem).2.2.1 (same ▸ List.mem_singleton_self _)
  rw [eq] at chained nodup apart
  rw [List.map_append] at nodup
  obtain ⟨nodup_before, -, disjoint⟩ := List.nodup_append.1 nodup
  have nodes : (u.setNext b.1 (u.next s.1)).numNodes = t.numNodes := shifted.within.nodes
  have tags : (u.setNext b.1 (u.next s.1)).tag = t.tag := (Table.tag_setNext ..).trans shifted.tag
  refine layout.rechain le nodes (b.1 :: probe :: (s :: after).map Prod.fst) (fun o out => ?_) (fun o mem => ?_)
    ⟨fun _ => ?_, ?_, fun e mem => ?_, fun e mem => ?_⟩ nofun ?_
  · rw [List.mem_cons, List.mem_cons, not_or, not_or] at out
    exact (Table.mem_setWord _ _ out.1).trans (shifted.same o out.2.2 out.2.1)
  · rw [eq]
    rcases List.mem_cons.1 mem with rfl | mem
    · exact .inl (List.mem_map_of_mem (by simp))
    · rcases List.mem_cons.1 mem with rfl | mem
      · exact .inr (.inl (List.mem_singleton_self _))
      · rw [List.map_append]
        exact .inl (List.mem_append_right _ mem)
  · rw [Table.next_setNext, Table.item_setNext]
    refine path_append.2 ⟨u.next s.1, shifted.front.redirect nodup_before, shifted.back.congr fun e mem =>
      ⟨update_of_ne (fun same => ?_) .., rfl⟩⟩
    have inside : b.1 ∈ (before ++ [b]).map Prod.fst := List.mem_map_of_mem (by simp)
    rcases (mem_slide mem).1 with mem | at_
    · exact disjoint b.1 inside e.1 (List.mem_cons_of_mem _ mem) same.symm
    · exact apart b (by simp) (same.symm.trans at_)
  · rw [tags, List.head?_append_of_ne_nil _ (by simp)]
    intro e mem
    refine chained.first e ?_
    rwa [List.head?_append_of_ne_nil _ (by simp)]
  · rw [tags]
    rw [List.tail_append_of_ne_nil (by simp)] at mem
    have rest := chained.rest
    rw [List.tail_append_of_ne_nil (by simp)] at rest
    rcases List.mem_append.1 mem with mem | mem
    · exact rest e (List.mem_append_left _ mem)
    · rcases (mem_slide mem).1 with mem | at_
      · obtain ⟨s', mem, same⟩ := List.mem_map.1 mem
        exact same ▸ rest s' (List.mem_append_right _ (List.mem_cons_of_mem _ mem))
      · rw [at_]
        exact tag
  · rw [Table.hashHead_congr nodes]
    rcases List.mem_append.1 mem with mem | mem
    · exact chained.placed e (List.mem_append_left _ mem)
    · obtain ⟨s', mem, same⟩ := (mem_slide mem).2
      exact same ▸ chained.placed s' (List.mem_append_right _ mem)
  · have moved := (List.perm_append_singleton s.1 (after.map Prod.fst ++ [probe])).symm
    rw [eq]
    simp only [List.map_append, map_fst_slide, List.map_cons, List.map_nil, List.append_assoc, List.cons_append,
      List.nil_append] at moved ⊢
    exact (moved.cons b.1).append_left _

end

section
variable {free : List Nat} {chain : Nat → List (Slot K V)} {h : Nat} {x : K × V}

structure Placed (P : Params K V) (t : Table K V d) (free : List Nat) (chain : Nat → List (Slot K V)) (x : K × V)
    (o : Nat) (t' : Table K V d) (free' : List Nat) (chain' : Nat → List (Slot K V)) : Prop where
  layout : Layout P t' free' [] chain' []
  within : Within t t'
  count : t'.numItems = t.numItems + 1
  room : free.length = free'.length + 1
  items : ((inChains (t.numNodes + 1) chain').map Prod.snd).Perm (x :: (inChains (t.numNodes + 1) chain).map Prod.snd)
  slot : (o, x) ∈ chain' (t.hashHead P x.1)

theorem items_update {n : Nat} {new : List (Slot K V)} (lt : h < n)
    (perm : (new.map Prod.snd).Perm (x :: (chain h).map Prod.snd)) :
    ((inChains n (update chain h new)).map Prod.snd).Perm (x :: (inChains n chain).map Prod.snd) := by
  have added : ((chain h).map Prod.snd ++ [x]).Perm (new.map Prod.snd ++ []) := by
    rw [List.append_nil]
    exact (List.perm_append_singleton ..).trans perm.symm
  have all := map_inChains_update_perm lt Prod.snd added
  rw [List.append_nil] at all
  exact all.symm.trans (List.perm_append_singleton ..)

theorem Layout.place_empty (layout : Layout P t free [] chain []) (some_ : 0 < t.numNodes)
    (empty : t.tag (t.hashHead P x.1) = .empty) :
    ∃ o t' free' chain', t.place P x = some (o, t') ∧ Placed P t free chain x o t' free' chain' := by
  have le : t.hashHead P x.1 ≤ t.numNodes := Table.hashHead_le some_ x.1
  have mem := layout.free_of_empty (Table.hashHead_pos x.1) le empty
  obtain ⟨free', perm, taken, -⟩ := layout.allocate mem
  have vacant : chain (t.hashHead P x.1) = [] := layout.chain_of_empty le (by simp [empty])
  have placed := taken.seat vacant rfl
  refine ⟨t.hashHead P x.1, _, free', _, ?_, placed, ?_, rfl, perm.length_eq, items_update (Nat.lt_succ_of_le le) ?_, ?_⟩
  · simp [Table.place, Table.innerAllocate, empty]
  · exact ((layout.within_allocate mem).setWord le _ _).setItem le x
  · rw [vacant]
    exact .refl _
  · rw [update_self]
    exact List.mem_singleton_self _

theorem Table.allocated (t : Table K V d) (o : Nat) : (t.allocateNode o).tag o = .probe ∧ (t.allocateNode o).next o = 0 := by
  rw [Table.tag_allocateNode, Table.next_allocateNode]
  exact ⟨update_self .., update_self ..⟩

theorem Layout.walk (layout : Layout P t free [] chain []) (le : h ≤ t.numNodes)
    (before : List (Slot K V)) {after : List (Slot K V)} (eq : chain h = before ++ s :: after) : t.walk (t.numNodes + 1) s.1 = some ((s :: after).map Prod.fst) := by
  have chained := layout.chains h le
  have length := layout.length_le le
  have nonzero := layout.nonzero le
  rw [eq] at chained length nonzero
  obtain ⟨m, -, -, rest⟩ := path_append.1 (chained.path (by simp))
  rw [List.length_append] at length
  exact Table.walk_path ⟨rfl, rest⟩ (List.cons_ne_nil _ _) (fun s' mem => nonzero s' (List.mem_append_right _ mem)) (by omega)

theorem Layout.place_head (layout : Layout P t free [] chain []) (some_ : 0 < t.numNodes) (room : free ≠ [])
    (head : t.tag (t.hashHead P x.1) = .head) :
    ∃ o t' free' chain', t.place P x = some (o, t') ∧ Placed P t free chain x o t' free' chain' := by
  have le : t.hashHead P x.1 ≤ t.numNodes := Table.hashHead_le some_ x.1
  obtain ⟨h, le', s, mem, at_⟩ := layout.slot_of_tag (Table.hashHead_pos x.1) le (by simp [head])
  have own : h = t.hashHead P x.1 := by
    rcases layout.tag_of_mem le' mem with ⟨-, same⟩ | ⟨tag, -⟩
    · exact same.symm.trans at_
    · rw [at_, head] at tag
      cases tag
  subst own
  cases eq : chain (t.hashHead P x.1) with
  | nil =>
    rw [eq] at mem
    cases mem
  | cons s₀ c =>
    have chained := layout.chains _ le
    rw [eq] at chained
    have first : t.hashHead P x.1 = s₀.1 := (chained.path (List.cons_ne_nil _ _)).1
    obtain ⟨c', b, last⟩ := (List.eq_nil_or_concat' (s₀ :: c)).resolve_left (List.cons_ne_nil _ _)
    have end_ : t.chainEnd (t.hashHead P x.1) = some b.1 := by
      rw [Table.chainEnd, first, layout.walk le [] eq, last]
      simp
    have mem' := layout.probeNode_mem (P := P) (o := b.1) room
    obtain ⟨free', perm, taken, -⟩ := layout.allocate mem'
    obtain ⟨tag, stop⟩ := t.allocated (t.probeNode P b.1)
    have placed := taken.attach (x := x) le (eq.trans last) tag stop rfl
    have le_b : b.1 ≤ t.numNodes := (layout.node_pos le (by simp [eq, last])).2
    have le_probe : t.probeNode P b.1 ≤ t.numNodes := layout.free_le (List.mem_cons_of_mem _ mem')
    refine ⟨t.probeNode P b.1, _, free', _, ?_, placed, ?_, rfl, perm.length_eq,
      items_update (Nat.lt_succ_of_le le) ?_, ?_⟩
    · simp [Table.place, Table.innerAllocate, head, end_]
    · exact ((layout.within_allocate mem').setNext le_b _).setItem le_probe x
    · rw [List.map_append]
      exact List.perm_append_singleton ..
    · rw [update_self]
      exact List.mem_append_right _ (List.mem_singleton_self _)

theorem Table.innerAllocate_foreign {key : K} (used : t.tag (t.hashHead P key) ≠ .empty)
    (foreign : t.tag (t.hashHead P key) ≠ .head) : t.innerAllocate P key = (do
      let item ← t.item (t.hashHead P key)
      let temp ← t.walk (t.numNodes + 1) (t.hashHead P key)
      let prev ← temp.getLast?
      let probe := t.probeNode P prev
      let u := ((t.allocateNode probe).setNext prev probe).shift probe temp.reverse
      let exchange ← u.findNodeBefore (t.hashHead P item.1) (t.hashHead P key)
      return (t.hashHead P key,
        (u.setNext exchange (u.next (t.hashHead P key))).setWord (t.hashHead P key) .head 0)) := by
  rw [Table.innerAllocate]
  cases tag : t.tag (t.hashHead P key) with
  | empty => exact absurd tag used
  | head => exact absurd tag foreign
  | probe => rfl
  | rehash => rfl

section
variable (layout : Layout P t free [] chain []) (some_ : 0 < t.numNodes) (room : free ≠ [])
include layout some_ room

theorem Layout.place_probe
    (used : t.tag (t.hashHead P x.1) ≠ .empty) (foreign : t.tag (t.hashHead P x.1) ≠ .head) :
    ∃ o t' free' chain', t.place P x = some (o, t') ∧ Placed P t free chain x o t' free' chain' := by
  have le : t.hashHead P x.1 ≤ t.numNodes := Table.hashHead_le some_ x.1
  obtain ⟨h, le', s, mem, at_⟩ := layout.slot_of_tag (Table.hashHead_pos x.1) le used
  obtain ⟨before, after, eq, first, -⟩ := layout.cut le' mem
  have chained := layout.chains h le'
  rcases List.eq_nil_or_concat' before with rfl | ⟨before, b, rfl⟩
  · -- It would be the head of that chain.
    rw [eq] at chained
    exact absurd (at_ ▸ chained.first s rfl) foreign
  · obtain ⟨c, z, last⟩ := (List.eq_nil_or_concat' (s :: after)).resolve_left (List.cons_ne_nil _ _)
    have item : t.item (t.hashHead P x.1) = some s.2 := at_ ▸ chained.item_eq mem
    have exchange : t.hashHead P s.2.1 = h := chained.placed s mem
    have temp : t.walk (t.numNodes + 1) (t.hashHead P x.1) = some ((s :: after).map Prod.fst) :=
      at_ ▸ layout.walk le' _ eq
    have end_ : ((s :: after).map Prod.fst).getLast? = some z.1 := by simp [last]
    have mem' := layout.probeNode_mem (P := P) (o := z.1) room
    obtain ⟨free', perm, taken, -⟩ := layout.allocate mem'
    obtain ⟨tag, stop⟩ := t.allocated (t.probeNode P z.1)
    have shifted := taken.shifted le' eq last stop
    have moved := taken.displace le' eq tag shifted
    have found : (((t.allocateNode (t.probeNode P z.1)).setNext z.1 (t.probeNode P z.1)).shift (t.probeNode P z.1)
        ((s :: after).map Prod.fst).reverse).findNodeBefore h (t.hashHead P x.1) = some b.1 := by
      rw [Table.findNodeBefore, ← at_]
      refine Table.nodeBefore_path shifted.front ?_ ?_
      · have nodup := layout.chain_nodup le'
        rw [eq, List.map_append] at nodup
        exact fun mem => (List.nodup_append.1 nodup).2.2 s.1 mem s.1 (List.mem_cons_self ..) rfl
      · have length := layout.length_le le'
        rw [eq, List.length_append] at length
        have nodes := shifted.within.nodes
        have nodes' : (t.allocateNode (t.probeNode P z.1)).numNodes = t.numNodes := rfl
        omega
    rw [at_] at moved
    have vacant : update chain h (before ++ [b] ++ slide (s :: after) (t.probeNode P z.1))
        (t.hashHead P x.1) = [] := by
      have none_ := layout.chain_of_empty le foreign
      rw [update_of_ne]
      · exact none_
      · rintro rfl
        rw [none_] at mem
        cases mem
    have placed := moved.seat (x := x) vacant (congrFun (Table.hashHead_congr shifted.within.nodes) x.1)
    refine ⟨t.hashHead P x.1, _, free', _, ?_, placed, ?_, ?_, perm.length_eq, ?_, ?_⟩
    · rw [Table.place, Table.innerAllocate_foreign used foreign]
      simp only [item, exchange, temp, end_, found, Option.bind_eq_bind, Option.bind_some, Option.pure_def]
    · have le_b := (layout.node_pos le' (s := b) (by simp [eq])).2
      exact ((((layout.within_allocate mem').trans shifted.within).setNext le_b _).setWord le _ _).setItem le x
    · exact shifted.count
    · have kept : ((chain h).map Prod.snd ++ []).Perm
          ((before ++ [b] ++ slide (s :: after) (t.probeNode P z.1)).map Prod.snd ++ []) := by
        simp only [eq, List.map_append, map_snd_slide]
        exact .refl _
      have same := map_inChains_update_perm (Nat.lt_succ_of_le le') Prod.snd kept
      rw [List.append_nil, List.append_nil] at same
      refine (items_update (Nat.lt_succ_of_le le) ?_).trans (same.symm.cons x)
      rw [vacant]
      exact .refl _
    · rw [update_self]
      exact List.mem_singleton_self _

theorem Layout.place (x : K × V) :
    ∃ o t' free' chain', t.place P x = some (o, t') ∧ Placed P t free chain x o t' free' chain' := by
  by_cases empty : t.tag (t.hashHead P x.1) = .empty
  · exact layout.place_empty some_ empty
  · by_cases head : t.tag (t.hashHead P x.1) = .head
    · exact layout.place_head some_ room head
    · exact layout.place_probe some_ room empty head

end

end

end Prpc.PoolHashTable
