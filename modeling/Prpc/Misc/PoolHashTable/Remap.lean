import Prpc.Misc.PoolHashTable.Rehash

namespace Prpc.PoolHashTable
open Lib

variable {K V : Type} {d : Doubles} {P : Params K V} {t t' : Table K V d} {o : Nat}
  {free hand : List Nat} {chain : Nat → List (Slot K V)} {waiting : List (Slot K V)}

structure Arranged (P : Params K V) (t : Table K V d) (free : List Nat)
    (chain : Nat → List (Slot K V)) : Prop where
  layout : Layout P t free [] chain []
  pos : 0 < t.numNodes
  count : t.numItems + free.length = t.numNodes
  stale : ∀ o, t.numNodes < o → t.tag o = .empty

def WellFormed (P : Params K V) (t : Table K V d) : Prop := ∃ free chain, Arranged P t free chain

theorem resetRoot_layout (P : Params K V) (t : Table K V d) :
    Layout P t.resetRoot [] t.offsets (fun _ => []) [] where
  cover := by
    rw [inChains_nil, List.append_nil]
    exact List.Perm.refl _
  ring := by
    refine Ring.nil ?_ ?_
    · simp [Table.resetRoot]
    · simp [Table.resetRoot]
  idle := nofun
  chains h _ := Chained.nil ..
  waits := nofun

theorem Layout.withCount (layout : Layout P t free hand chain waiting) (count : Int) :
    Layout P { t with numItems := count } free hand chain waiting :=
  ⟨layout.cover, layout.ring, layout.idle, fun h le =>
    (layout.chains h le).congr rfl fun _ _ => rfl, layout.waits⟩

theorem Layout.deallocate_all {rest : List Nat} (layout : Layout P t free rest chain waiting) :
    Layout P (rest.foldl Table.deallocateNode t) (free ++ rest) [] chain waiting ∧
    (rest.foldl Table.deallocateNode t).numItems = t.numItems - rest.length ∧
    Within t (rest.foldl Table.deallocateNode t) := by
  induction rest generalizing t free with
  | nil => exact ⟨by simpa using layout, by simp, Within.refl t⟩
  | cons o rest ih =>
    have le : o ≤ t.numNodes := (layout.pos (by simp)).2
    obtain ⟨all, count, within⟩ := ih layout.deallocate
    rw [List.append_assoc] at all
    refine ⟨all, count.trans ?_, (layout.within_deallocate le).trans within⟩
    change t.numItems - 1 - rest.length = _
    rw [List.length_cons]
    omega

theorem initializeNodes_arranged (pos : 0 < t.numNodes) (stale : ∀ o, t.numNodes < o → t.tag o = .empty) :
    Arranged P t.initializeNodes t.offsets fun _ => [] := by
  obtain ⟨layout, count, within⟩ := ((resetRoot_layout P t).withCount t.numNodes).deallocate_all
  have nodes : t.initializeNodes.numNodes = t.numNodes := within.nodes
  refine ⟨layout, nodes ▸ pos, ?_, fun o lt => ?_⟩
  · have empty : t.initializeNodes.numItems = t.numNodes - t.offsets.length := count
    rw [empty, nodes]
    omega
  · rw [nodes] at lt
    have kept : t.initializeNodes.mem o = t.resetRoot.mem o := within.beyond o lt
    rw [Table.tag, kept, Table.resetRoot, Table.setPrev, Table.mem_setBody _ (by omega),
      Table.mem_setWord _ _ (by omega)]
    exact stale o lt

theorem construct_wellFormed (P : Params K V) : WellFormed P (construct P) :=
  ⟨_, _, initializeNodes_arranged Nat.one_pos fun _ _ => rfl⟩

def slotOf (t : Table K V d) (o : Nat) : Option (Slot K V) :=
  if t.isEmpty o then none else (t.item o).map fun x => (o, x)

def slotsOf (t : Table K V d) (offsets : List Nat) : List (Slot K V) := offsets.filterMap (slotOf t)

theorem slotOf_empty (empty : t.tag o = .empty) : slotOf t o = none := by
  simp [slotOf, Table.isEmpty, empty]

theorem slotOf_used {x : K × V} (used : t.tag o ≠ .empty) (item : t.item o = some x) :
    slotOf t o = some (o, x) := by
  simp [slotOf, Table.isEmpty, used, item]

theorem slotsOf_congr {offsets : List Nat} (same : ∀ o ∈ offsets, t'.mem o = t.mem o) :
    slotsOf t' offsets = slotsOf t offsets := by
  refine List.filterMap_congr fun o mem => ?_
  obtain ⟨tag, -, -, item⟩ := Table.same_of_mem (same o mem)
  rw [slotOf, slotOf, Table.isEmpty, Table.isEmpty, tag, item]

theorem slotsOf_empty {offsets : List Nat} (empty : ∀ o ∈ offsets, t.tag o = .empty) :
    slotsOf t offsets = [] :=
  List.filterMap_eq_nil_iff.2 fun o mem => slotOf_empty (empty o mem)

theorem Layout.used (layout : Layout P t free hand chain waiting) {s : Slot K V}
    (mem : s ∈ inChains (t.numNodes + 1) chain) : t.tag s.1 ≠ .empty ∧ t.item s.1 = some s.2 := by
  obtain ⟨h, lt, mem⟩ := mem_inChains.1 mem
  refine ⟨?_, (layout.chains h (by omega)).item_eq mem⟩
  rcases layout.tag_of_mem (by omega) mem with ⟨tag, -⟩ | ⟨tag, -⟩ <;> simp [tag]

theorem Layout.slots_perm (layout : Layout P t free [] chain []) :
    (slotsOf t t.offsets).Perm (inChains (t.numNodes + 1) chain) := by
  have perm := layout.read_perm (slotOf t) some (fun _ => none)
    (fun o mem => slotOf_empty (layout.idle o mem))
    (fun s mem => slotOf_used (layout.used mem).1 (layout.used mem).2) nofun
  simpa [slotsOf] using perm

theorem Arranged.numItems_eq (arranged : Arranged P t free chain) :
    t.numItems = (inChains (t.numNodes + 1) chain).length := by
  have count := arranged.count
  have cover := arranged.layout.cover.length_eq
  simp only [List.length_append, List.length_map, List.length_nil, Table.offsets, List.length_range'] at cover
  omega

theorem Layout.await_all {rest : List Nat} (layout : Layout P t free rest chain waiting)
    (items : ∀ o ∈ rest, t.tag o ≠ .empty → ∃ x, t.item o = some x) : ∃ free',
    Layout P (rest.foldl Table.await t) free' [] chain (waiting ++ slotsOf t rest) ∧
    (rest.foldl Table.await t).numItems = t.numItems ∧ Within t (rest.foldl Table.await t) := by
  induction rest generalizing t free waiting with
  | nil => exact ⟨free, by simpa [slotsOf] using layout, rfl, Within.refl t⟩
  | cons o rest ih =>
    have nodup : (o :: rest).Nodup := layout.nodup.of_append_right.of_append_right.of_append_left
    have le : o ≤ t.numNodes := (layout.pos (by simp)).2
    by_cases empty : t.tag o = .empty
    · have layout₁ := layout.deallocate.withCount ((t.deallocateNode o).numItems + 1)
      have kept : ∀ o' ∈ rest, (t.deallocateNode o).mem o' = t.mem o' := by
        intro o' mem
        obtain ⟨notRoot, notFree⟩ := layout.hand_apart (List.mem_cons_of_mem _ mem)
        refine layout.mem_deallocate ?_ (by simp [notRoot, notFree])
        rintro rfl
        exact (List.nodup_cons.1 nodup).1 mem
      obtain ⟨free', layout', count, within⟩ := ih layout₁ fun o' mem used => by
        obtain ⟨tag, -, -, item⟩ := Table.same_of_mem (kept o' mem)
        exact item ▸ items o' (List.mem_cons_of_mem _ mem) (tag ▸ used)
      have step : t.await o = { t.deallocateNode o with numItems := (t.deallocateNode o).numItems + 1 } := by
        simp [Table.await, Table.isEmpty, empty]
      have same : slotsOf t (o :: rest) = slotsOf (t.await o) rest := by
        rw [step, slotsOf, List.filterMap_cons_none (slotOf_empty empty)]
        exact (slotsOf_congr kept).symm
      rw [← step] at layout' count within
      rw [List.foldl_cons, same]
      refine ⟨free', layout', count.trans ?_, Within.trans ?_ within⟩
      · rw [step]
        change t.numItems - 1 + 1 = t.numItems
        omega
      · have inside := layout.within_deallocate le
        rw [step]
        exact ⟨rfl, rfl, rfl, inside.beyond⟩
    · obtain ⟨x, item⟩ := items o (List.mem_cons_self ..) empty
      have step : t.await o = t.setWord o .rehash (t.next o) := by
        simp [Table.await, Table.isEmpty, empty]
      have kept : ∀ o' ∈ rest, (t.await o).mem o' = t.mem o' := by
        intro o' mem
        rw [step]
        refine Table.mem_setWord _ _ ?_
        rintro rfl
        exact (List.nodup_cons.1 nodup).1 mem
      have nodes : (t.await o).numNodes = t.numNodes := by rw [step]; rfl
      have layout₁ : Layout P (t.await o) free rest chain (waiting ++ [(o, x)]) := by
        refine layout.rewait nodes (fun o' out => ?_) (fun e mem => ?_) ?_
        · rw [step]
          exact Table.mem_setWord _ _ fun same => out (same ▸ List.mem_cons_self ..)
        · rcases List.mem_append.1 mem with old | new
          · exact .inr old
          · rw [List.mem_singleton.1 new, step]
            exact .inl ⟨by simp, by simpa using item⟩
        · simp
      obtain ⟨free', layout', count, within⟩ := ih layout₁ fun o' mem used => by
        obtain ⟨tag, -, -, item⟩ := Table.same_of_mem (kept o' mem)
        exact item ▸ items o' (List.mem_cons_of_mem _ mem) (tag ▸ used)
      have same : waiting ++ slotsOf t (o :: rest) = waiting ++ [(o, x)] ++ slotsOf (t.await o) rest := by
        rw [slotsOf, List.filterMap_cons_some (slotOf_used empty item), slotsOf_congr kept, List.append_assoc]
        rfl
      rw [List.foldl_cons, same]
      refine ⟨free', layout', count.trans (by rw [step]; rfl), Within.trans ?_ within⟩
      rw [step]
      exact (Within.refl t).setWord le _ _

theorem Doubles.limit_self (f : Factor d) : d.limit f.1 = f := by
  have high : ¬ f.1 < d.round (1 / 10) := not_lt.2 f.2.1
  exact (dif_neg high).trans (Subtype.ext (min_eq_right f.2.2))

variable {nodes : Nat}

theorem Table.lt_mapped (le : o ≤ nodes) : o * P.nodeSize < Table.mapped P nodes := by
  have fits : P.nodeSize * (nodes + 1) ≤ Table.mapped P nodes := by
    have page := P.page_pos
    have cut := Nat.div_add_mod (P.nodeSize * (nodes + 1) + P.page - 1) P.page
    have small := Nat.mod_lt (P.nodeSize * (nodes + 1) + P.page - 1) page
    rw [Table.mapped, Nat.mul_comm _ P.page]
    omega
  have positive := P.nodeSize_pos
  have product : o * P.nodeSize ≤ nodes * P.nodeSize := Nat.mul_le_mul_right _ le
  have next : P.nodeSize * (nodes + 1) = nodes * P.nodeSize + P.nodeSize := by ring
  omega

theorem Table.mem_setSpace (le : o ≤ nodes) : (t.setSpace P nodes).mem o = t.mem o :=
  if_pos (Table.lt_mapped le)

theorem Table.tag_setSpace (empty : t.tag o = .empty) : (t.setSpace P nodes).tag o = .empty := by
  change (if _ then t.mem o else Node.zero).tag = _
  split
  · exact empty
  · rfl

def spread (P : Params K V) (t : Table K V d) (nodes : Nat) : Table K V d :=
  ((t.setSpace P nodes).setMaxLoadFactor (t.setSpace P nodes).maxLoadFactor.1).resetRoot

def awaited (P : Params K V) (t : Table K V d) (nodes : Nat) : Table K V d :=
  (spread P t nodes).offsets.foldl Table.await (spread P t nodes)

theorem mem_spread (pos : o ≠ 0) : (spread P t nodes).mem o = (t.setSpace P nodes).mem o :=
  (Table.mem_setBody _ pos).trans (Table.mem_setWord _ _ pos)

theorem Arranged.slots_spread (arranged : Arranged P t free chain) (more : t.numNodes < nodes) :
    slotsOf (spread P t nodes) (spread P t nodes).offsets = slotsOf t t.offsets := by
  have split : (spread P t nodes).offsets = t.offsets ++ List.range' (1 + t.numNodes) (nodes - t.numNodes) := by
    have total : nodes = t.numNodes + (nodes - t.numNodes) := by omega
    change List.range' 1 nodes = _
    rw [Table.offsets, List.range'_append_1, ← total]
  have old : slotsOf (spread P t nodes) t.offsets = slotsOf t t.offsets := by
    refine slotsOf_congr fun o mem => ?_
    have bounds := Layout.mem_offsets.1 mem
    rw [mem_spread (by omega), Table.mem_setSpace (by omega)]
  have new : slotsOf (spread P t nodes) (List.range' (1 + t.numNodes) (nodes - t.numNodes)) = [] := by
    refine slotsOf_empty fun o mem => ?_
    rw [List.mem_range'_1] at mem
    rw [Table.tag, mem_spread (by omega)]
    exact Table.tag_setSpace (arranged.stale o (by omega))
  rw [split, slotsOf, List.filterMap_append]
  change slotsOf _ _ ++ slotsOf _ _ = _
  rw [old, new, List.append_nil]

theorem Arranged.all_wait (arranged : Arranged P t free chain) (more : t.numNodes < nodes) :
    ∃ free', Layout P (awaited P t nodes) free' [] (fun _ => []) (slotsOf t t.offsets) ∧
    (awaited P t nodes).numItems = t.numItems ∧ Within (spread P t nodes) (awaited P t nodes) := by
  have items : ∀ o ∈ (spread P t nodes).offsets, (spread P t nodes).tag o ≠ .empty →
      ∃ x, (spread P t nodes).item o = some x := by
    intro o mem used
    have bounds := Layout.mem_offsets.1 mem
    have same : (spread P t nodes).mem o = t.mem o := by
      have le : o ≤ nodes := bounds.2
      rw [mem_spread (by omega), Table.mem_setSpace le]
    obtain ⟨tag, -, -, item⟩ := Table.same_of_mem same
    rw [tag] at used
    have le : o ≤ t.numNodes := by
      by_contra beyond
      exact used (arranged.stale o (by omega))
    obtain ⟨h, le', s, at_, rfl⟩ := arranged.layout.slot_of_tag bounds.1 le used
    exact ⟨s.2, by rw [item, (arranged.layout.chains h le').item_eq at_]⟩
  have reset : Layout P (spread P t nodes) [] (spread P t nodes).offsets (fun _ => []) [] :=
    resetRoot_layout P _
  obtain ⟨free', layout, count, within⟩ := reset.await_all items
  rw [List.nil_append, arranged.slots_spread more] at layout
  exact ⟨free', layout, count, within⟩

def placements (P : Params K V) (heads probes : List (Table K V d × Nat)) : List (Slot K V) :=
  (heads.filterMap fun pass => headTarget P pass.1 pass.2) ++
    probes.filterMap fun pass => probeTarget P pass.1 pass.2

def remapPasses (P : Params K V) (t : Table K V d) (nodes : Nat) :
    Option (List (Table K V d × Nat) × List (Table K V d × Nat) × Table K V d) := do
  let t := awaited P t nodes
  let (heads, t) ← scanPasses (Table.settleHead P) (2 * nodes + 1) (t.probeOffset 0) t
  let (probes, t) ← scanPasses (Table.settleProbe P) (2 * nodes + 1) (t.probeOffset 0) t
  return (heads, probes, t)

theorem innerRemapRehash_of_passes {heads probes : List (Table K V d × Nat)}
    (more : t.numNodes < nodes) (run : remapPasses P t nodes = some (heads, probes, t')) :
    t.innerRemapRehash P nodes = some t' := by
  simp only [remapPasses, Option.bind_eq_bind, Option.bind_eq_some_iff, Option.pure_def,
    Option.some.injEq] at run
  obtain ⟨⟨heads', t₁⟩, second, ⟨probes', t₂⟩, third, eq⟩ := run
  cases eq
  have second := scan_of_passes second
  have third := scan_of_passes third
  have whole : t.innerRemapRehash P nodes = (do
          guard (t.numNodes < nodes)
          let t ← Table.scan (Table.settleHead P) (2 * nodes + 1) ((awaited P t nodes).probeOffset 0)
            (awaited P t nodes)
          Table.scan (Table.settleProbe P) (2 * nodes + 1) (t.probeOffset 0) t) := rfl
  rw [whole, guard, if_pos more, second]
  exact third

structure Remapped (P : Params K V) (t : Table K V d) (nodes : Nat)
    (heads probes : List (Table K V d × Nat)) (t' : Table K V d) (free : List Nat)
    (chain : Nat → List (Slot K V)) : Prop where
  run : remapPasses P t nodes = some (heads, probes, t')
  arranged : Arranged P t' free chain
  size : t'.numNodes = nodes
  count : t'.numItems = t.numItems
  factor : t'.maxLoadFactor = t.maxLoadFactor
  limit : t'.maxNumItems = min nodes (Doubles.share t.maxLoadFactor nodes)
  chained : (inChains (nodes + 1) chain).Perm (placements P heads probes)
  items : ((slotsOf t t.offsets).map Prod.snd).Perm ((placements P heads probes).map Prod.snd)
  second : ∀ pass ∈ heads, Takes (Table.settleHead P) (headTarget P) pass.1 pass.2
  third : ∀ pass ∈ probes, Takes (Table.settleProbe P) (probeTarget P) pass.1 pass.2 ∧
    ∀ prev, FallsBack P pass.1 prev → pass.1.probeNodeRehash P prev = pass.1.prev 0 ∧
      pass.1.probeNodeRehash P prev ≠ 0 ∧ pass.1.isEmpty (pass.1.probeNodeRehash P prev)

theorem Arranged.remap (arranged : Arranged P t free chain) (more : t.numNodes < nodes) :
    ∃ heads probes t' free' chain', Remapped P t nodes heads probes t' free' chain' := by
  obtain ⟨free₀, layout₀, count₀, within₀⟩ := arranged.all_wait more
  have nodes₀ : (awaited P t nodes).numNodes = nodes := within₀.nodes
  have slots := arranged.layout.slots_perm.length_eq
  have items := arranged.numItems_eq
  have old := arranged.count
  have all : (slotsOf t t.offsets).length + free₀.length = nodes := by
    have cover := layout₀.cover.length_eq
    rw [inChains_nil] at cover
    simpa only [List.map_nil, List.nil_append, List.length_append, List.length_map, Table.offsets,
      List.length_range', nodes₀] using cover
  have room₀ : free₀ ≠ [] := by
    rw [← List.length_pos_iff]
    omega
  -- the second scan
  have start : Heading P 1 (awaited P t nodes) (fun _ => []) (slotsOf t t.offsets) := by
    refine ⟨fun h _ => Nat.zero_le _, fun e mem lt => ?_⟩
    exact absurd (Nat.lt_one_iff.1 lt) (layout₀.waiting_apart mem).1
  obtain ⟨heads, t₁, free₁, chain₁, waiting₁, run₁, settled₁, heading, heads_⟩ :=
    headRule.run (n := 2 * nodes + 1) layout₀ room₀ le_rfl start (by omega) (by omega)
  have nodes₁ : t₁.numNodes = nodes := settled₁.within.nodes.trans nodes₀
  have room₁ : free₁ ≠ [] := by
    rw [← List.length_pos_iff, settled₁.room]
    omega
  -- the third scan
  have probing : Probing P 1 t₁ chain₁ waiting₁ := by
    refine ⟨fun e mem => heading.passed e mem ?_, fun e mem => ?_⟩
    · have le := settled₁.layout.waiting_le mem
      omega
    · exact Nat.one_le_iff_ne_zero.2 (settled₁.layout.waiting_apart mem).1
  have left : waiting₁.length ≤ (slotsOf t t.offsets).length := by
    have length := settled₁.leaves.length_eq
    simp only [List.length_append, List.length_map] at length
    omega
  obtain ⟨probes, t', free', chain', waiting', run₂, settled₂, probed, probes_⟩ :=
    probeRule.run (n := 2 * nodes + 1) settled₁.layout room₁ le_rfl probing (by omega) (by omega)
  obtain rfl : waiting' = [] := by
    refine List.eq_nil_iff_forall_not_mem.2 fun e mem => ?_
    have le := settled₂.layout.waiting_le mem
    have ahead := probed.ahead e mem
    have same := settled₂.within.nodes
    omega
  have settled := settled₁.trans settled₂
  have within := within₀.trans settled.within
  have nodes' : t'.numNodes = nodes := within.nodes
  have settled_items := settled.leaves
  have joins := settled.joins
  refine ⟨heads, probes, t', free', chain', ?_, ⟨settled.layout, by omega, ?_, fun o lt => ?_⟩, nodes',
    settled.count.trans count₀, within.factor.trans ?_, within.limit.trans ?_, ?_, ?_, heads_, probes_⟩
  · have first : (awaited P t nodes).probeOffset 0 = if 1 ≤ (awaited P t nodes).numNodes then 1 else 0 := rfl
    have again : t₁.probeOffset 0 = if 1 ≤ t₁.numNodes then 1 else 0 := rfl
    simp only [remapPasses, first, run₁, Option.bind_eq_bind, Option.bind_some, again, run₂]
    rfl
  · rw [settled.count, count₀, settled.room, nodes']
    omega
  · rw [Table.tag, within.beyond o (nodes' ▸ lt), mem_spread (by omega)]
    exact Table.tag_setSpace (arranged.stale o (by omega))
  · exact Doubles.limit_self t.maxLoadFactor
  · exact congrArg (fun f => min nodes (Doubles.share f nodes)) (Doubles.limit_self t.maxLoadFactor)
  · rw [nodes₀, inChains_nil] at joins
    exact joins
  · rw [List.map_nil, List.append_nil] at settled_items
    exact settled_items

def relocations (P : Params K V) (heads probes : List (Table K V d × Nat)) : Nat :=
  (heads.countP fun pass => (headTarget P pass.1 pass.2).any fun s => s.1 ≠ pass.2) +
    probes.countP fun pass => (probeTarget P pass.1 pass.2).any fun s => s.1 ≠ pass.2

theorem relocations_le (heads probes : List (Table K V d × Nat)) :
    relocations P heads probes ≤ (placements P heads probes).length := by
  rw [relocations, placements, List.length_append, List.length_filterMap_eq_countP,
    List.length_filterMap_eq_countP]
  refine Nat.add_le_add (List.countP_mono_left fun pass _ there => ?_)
    (List.countP_mono_left fun pass _ there => ?_)
  · exact Option.isSome_of_any there
  · exact Option.isSome_of_any there

def plain : Params Nat Nat where
  doubles := ⟨id, monotone_id, fun _ => rfl, by norm_num⟩
  hash := id
  value := 0
  triviallyMovable := true
  nodeSize := 24
  nodeSize_pos := by decide
  page := 4096
  page_pos := by decide

end Prpc.PoolHashTable
