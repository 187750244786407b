import Prpc.Misc.PoolHashTable.Contents

namespace Prpc.PoolHashTable
open Lib

variable {K V : Type} {d : Doubles} {P : Params K V} {t t' : Table K V d} {free : List Nat}
  {chain : Nat → List (Slot K V)} {o n : Nat} {x : K × V}

theorem Arranged.contents_nil (arranged : Arranged P t free fun _ => []) : contents t = [] := by
  have perm := arranged.layout.contents_perm
  rw [inChains_nil] at perm
  exact List.perm_nil.1 perm

theorem initializeNodes_fields (P : Params K V) (t : Table K V d) : t.initializeNodes.numNodes = t.numNodes ∧
    t.initializeNodes.maxLoadFactor = t.maxLoadFactor ∧ t.initializeNodes.maxNumItems = t.maxNumItems := by
  obtain ⟨-, -, within⟩ := ((resetRoot_layout P t).withCount t.numNodes).deallocate_all
  exact ⟨within.nodes, within.factor, within.limit⟩

theorem Arranged.clear (arranged : Arranged P t free chain) : Arranged P t.clear t.offsets fun _ => [] :=
  initializeNodes_arranged arranged.pos arranged.stale

theorem Arranged.tag_clear (arranged : Arranged P t free chain) (pos : 1 ≤ o) : t.clear.tag o = .empty := by
  by_cases inside : o ≤ t.numNodes
  · exact arranged.clear.layout.idle o (Layout.mem_offsets.2 ⟨pos, inside⟩)
  · have nodes : t.clear.numNodes = t.numNodes := (initializeNodes_fields P t).1
    exact arranged.clear.stale o (by omega)

theorem Filled.used_offsets (filled : Filled t) {offsets : List Nat} (inside : ∀ o ∈ offsets, 1 ≤ o ∧ o ≤ t.numNodes) :
    offsets.filter (fun o => !t.isEmpty o) = (slotsOf t offsets).map Prod.fst := by
  induction offsets with
  | nil => rfl
  | cons o offsets ih =>
    obtain ⟨pos, le⟩ := inside o (List.mem_cons_self ..)
    have rest := ih fun o' mem => inside o' (List.mem_cons_of_mem _ mem)
    by_cases empty : t.tag o = .empty
    · rw [List.filter_cons_of_neg (by simp [Table.isEmpty, empty]), rest, slotsOf, slotsOf,
        List.filterMap_cons_none (slotOf_empty empty)]
    · obtain ⟨x, item⟩ := filled o pos le empty
      rw [List.filter_cons_of_pos (by simp [Table.isEmpty, empty]), rest, slotsOf, slotsOf,
        List.filterMap_cons_some (slotOf_used empty item), List.map_cons]

theorem WellFormed.items (wellFormed : WellFormed P t) : t.items = some (contents t) := by
  rw [Table.items, wellFormed.filled.used_offsets fun o mem => Layout.mem_offsets.1 mem]
  exact mapM_item fun s mem => (item_of_mem_slotsOf mem).2.2

def emptied (P : Params K V) (t : Table K V d) (nodes : Nat) : Table K V d :=
  let t := t.clear.setSpace P nodes
  (t.setMaxLoadFactor t.maxLoadFactor.1).initializeNodes

theorem Arranged.emptied (arranged : Arranged P t free chain) {nodes : Nat} (some_ : 0 < nodes) :
    Arranged P (emptied P t nodes) (List.range' 1 nodes) fun _ => [] := by
  refine initializeNodes_arranged some_ fun o beyond => ?_
  have lt : nodes < o := beyond
  exact Table.tag_setSpace (arranged.tag_clear (by omega))

structure Resized (P : Params K V) (t t' : Table K V d) (n : Nat) : Prop where
  wellFormed : WellFormed P t'
  limit : t'.maxNumItems ≤ t'.numNodes
  contents : (contents t').Perm (contents t)
  nodes : n ≤ t'.numNodes

theorem WellFormed.innerSerializeRehash (wellFormed : WellFormed P t) (nodes : Nat) (some_ : 0 < nodes)
    (room : t.numItems ≤ nodes) : ∃ t', t.innerSerializeRehash P nodes = some t' ∧ Resized P t t' nodes := by
  obtain ⟨free, chain, arranged⟩ := id wellFormed
  have empty := arranged.emptied some_
  have size := wellFormed.size
  obtain ⟨numNodes, -, limit⟩ := initializeNodes_fields P
    ((t.clear.setSpace P nodes).setMaxLoadFactor (t.clear.setSpace P nodes).maxLoadFactor.1)
  have numNodes' : (emptied P t nodes).numNodes = nodes := numNodes
  have limit' : (emptied P t nodes).maxNumItems ≤ nodes := limit.trans_le (min_le_left ..)
  obtain ⟨t', placed, wellFormed', within, perm⟩ := WellFormed.place_all ⟨_, _, empty⟩ (contents t) (by
    rw [empty.contents_nil, numNodes', List.length_nil]
    omega)
  rw [empty.contents_nil, List.append_nil] at perm
  refine ⟨t', ?_, wellFormed', ?_, perm, ?_⟩
  · rw [Table.innerSerializeRehash, wellFormed.items]
    exact placed
  · rw [within.nodes, within.limit, numNodes']
    exact limit'
  · rw [within.nodes, numNodes']

theorem Doubles.le_raise (f : Factor d) (n buckets : Nat) : buckets ≤ Doubles.raise f n buckets := Nat.le_add_right ..

theorem Doubles.room_raise (f : Factor d) (n buckets : Nat) : n ≤ Doubles.raise f n buckets :=
  Doubles.le_of_not_below (Nat.find_spec (Doubles.exists_not_below f buckets n))

section
variable (wellFormed : WellFormed P t)
include wellFormed

theorem WellFormed.innerRemapRehash {nodes : Nat} (more : t.numNodes < nodes) :
    ∃ t', t.innerRemapRehash P nodes = some t' ∧ Resized P t t' nodes := by
  obtain ⟨free, chain, arranged⟩ := wellFormed
  obtain ⟨heads, probes, t', free', chain', remapped⟩ := arranged.remap more
  have perm := remapped.arranged.layout.contents_perm
  rw [remapped.size] at perm
  refine ⟨t', innerRemapRehash_of_passes more remapped.run, ⟨free', chain', remapped.arranged⟩, ?_, ?_, ?_⟩
  · rw [remapped.limit, remapped.size]
    exact min_le_left ..
  · exact perm.trans ((remapped.chained.map Prod.snd).trans remapped.items.symm)
  · rw [remapped.size]

theorem WellFormed.rehash (limit : t.maxNumItems ≤ t.numNodes) (buckets : Nat) :
    ∃ t', t.rehash P buckets = some t' ∧ Resized P t t' buckets := by
  have size := wellFormed.size
  rw [Table.rehash]
  have enough := Doubles.le_raise t.maxLoadFactor t.numItems.toNat
    (max (max buckets 1) (Doubles.quotient t.maxLoadFactor t.numItems.toNat))
  have room := Doubles.room_raise t.maxLoadFactor t.numItems.toNat
    (max (max buckets 1) (Doubles.quotient t.maxLoadFactor t.numItems.toNat))
  generalize Doubles.raise t.maxLoadFactor t.numItems.toNat
    (max (max buckets 1) (Doubles.quotient t.maxLoadFactor t.numItems.toNat)) = nodes at enough room ⊢
  have wanted : max buckets 1 ≤ nodes := (le_max_left ..).trans enough
  have weaken {t' : Table K V d} (resized : Resized P t t' nodes) : Resized P t t' buckets :=
    ⟨resized.wellFormed, resized.limit, resized.contents, (le_max_left ..).trans (wanted.trans resized.nodes)⟩
  by_cases same : nodes = t.numNodes
  · exact ⟨t, if_pos same, weaken ⟨wellFormed, limit, .refl _, same.le⟩⟩
  · rw [if_neg same]
    by_cases grows : t.numNodes < nodes ∧ P.triviallyMovable
    · rw [if_pos grows]
      obtain ⟨t', rehashed, resized⟩ := wellFormed.innerRemapRehash grows.1
      exact ⟨t', rehashed, weaken resized⟩
    · rw [if_neg grows]
      obtain ⟨t', rehashed, resized⟩ := wellFormed.innerSerializeRehash nodes (by omega) (by omega)
      exact ⟨t', rehashed, weaken resized⟩

theorem WellFormed.reserve (limit : t.maxNumItems ≤ t.numNodes) (n : Nat) :
    ∃ t', t.reserve P n = some t' ∧ Resized P t t' n := by
  rw [Table.reserve]
  have room := Doubles.room_raise t.maxLoadFactor n (Doubles.quotient t.maxLoadFactor n)
  generalize Doubles.raise t.maxLoadFactor n (Doubles.quotient t.maxLoadFactor n) = buckets at room ⊢
  by_cases more : t.maxNumItems < n
  · rw [if_pos more]
    by_cases few : t.numNodes < buckets
    · obtain ⟨t', rehashed, resized⟩ := wellFormed.rehash limit (max buckets t.expandSpace)
      refine ⟨t', (if_pos few).trans rehashed, resized.wellFormed, resized.limit, resized.contents, ?_⟩
      exact room.trans ((le_max_left ..).trans resized.nodes)
    · exact ⟨t, if_neg few, wellFormed, limit, .refl _, room.trans (not_lt.1 few)⟩
  · exact ⟨t, if_neg more, wellFormed, limit, .refl _, (not_lt.1 more).trans limit⟩

theorem WellFormed.innerEmplaceNotExist (limit : t.maxNumItems ≤ t.numNodes) (x : K × V) :
    ∃ o t', t.innerEmplaceNotExist P x = some (o, t') ∧ WellFormed P t' ∧ t'.maxNumItems ≤ t'.numNodes ∧
      (contents t').Perm (x :: contents t) ∧ (o, x) ∈ slotsOf t' t'.offsets := by
  obtain ⟨t₁, reserved, resized⟩ := wellFormed.reserve limit (t.numItems + 1).toNat
  have size := wellFormed.size
  have size₁ := resized.wellFormed.size
  have length := resized.contents.length_eq
  have nodes := resized.nodes
  obtain ⟨o, t', placed, wellFormed', within, perm, mem⟩ := resized.wellFormed.place (by omega) x
  refine ⟨o, t', ?_, wellFormed', ?_, perm.trans (resized.contents.cons x), mem⟩
  · rw [Table.innerEmplaceNotExist, reserved]
    exact placed
  · rw [within.limit, within.nodes]
    exact resized.limit

end

end Prpc.PoolHashTable
