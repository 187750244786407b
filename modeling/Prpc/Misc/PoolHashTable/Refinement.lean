import Prpc.Lib.Family
import Prpc.Lib.Transition
import Prpc.Misc.PoolHashTable.Maps

namespace Prpc.PoolHashTable
open Lib

variable {K V : Type} [DecidableEq K] {P : Params K V}

/-- Tables and maps are known by a number. An iterator is the number of steps from `begin()`. -/
inductive Op (K V : Type)
  | construct (i : Nat)
  | copyConstruct (i other : Nat)
  | moveConstruct (i other : Nat)
  | copyAssign (i other : Nat)
  | moveAssign (i other : Nat)
  | emplace (i : Nat) (key : K) (value : V)
  | insert (i : Nat) (key : K) (value : V)
  | tryEmplace (i : Nat) (key : K) (value : V)
  | index (i : Nat) (key : K)
  | assign (i : Nat) (key : K) (value : V)
  | eraseKey (i : Nat) (key : K)
  | eraseIterator (i pos : Nat)
  | prioritise (i : Nat) (key : K)
  | maxLoadFactor (i : Nat) (factor : ℚ)
  | reserve (i n : Nat)
  | rehash (i buckets : Nat)
  | clear (i : Nat)

inductive Out (K V : Type)
  | unit
  | inserted (item : K × V) (yes : Bool)
  | value (v : V)
  | erased (count : Nat)
  | found (item : Option (K × V))

abbrev Tables (P : Params K V) := Family (Table K V P.doubles)
abbrev Maps (K V : Type) := Family (Finmap fun _ : K => V)

def inserted {d : Doubles} (result : Option ((Nat × Bool) × Table K V d)) : Option (Table K V d × Out K V) := do
  let ((o, yes), t) ← result
  return (t, .inserted (← t.item o) yes)

/-- `operator=` makes its argument first, from another table or from this one, and this table then takes it over. -/
def apply (P : Params K V) (s : Tables P) : Op K V → Option (Tables P × Out K V)
  | .construct i => some (Function.update s i (some (construct P)), .unit)
  | .copyConstruct i other | .copyAssign i other => do
    return (Function.update s i (some (← (← s other).copyConstruct P)), .unit)
  | .moveConstruct i other | .moveAssign i other => do
    let t ← s other
    return (Function.update (Function.update s other (some t.movedFrom)) i (some t), .unit)
  | .emplace i key value => s.modify i fun t => inserted (t.emplace P (key, value))
  | .insert i key value => s.modify i fun t => inserted (t.insert P (key, value))
  | .tryEmplace i key value => s.modify i fun t => inserted (t.tryEmplace P key value)
  | .index i key => s.modify i fun t => do
    let (o, t) ← t.index P key
    return (t, .value (← t.item o).2)
  | .assign i key value => s.modify i fun t => do return (← t.assign P key value, .unit)
  | .eraseKey i key => s.modify i fun t => do
    let (count, t) ← t.eraseKey P key
    return (t, .erased count)
  | .eraseIterator i pos => s.modify i fun t => do
    return ((← t.eraseIterator P (← (← t.iteration)[pos]?)).2, .unit)
  | .prioritise i key => s.modify i fun t => do
    let (o, t) ← t.prioritise P key
    return (t, .found (← if o = 0 then some none else (t.item o).map some))
  | .maxLoadFactor i factor => s.modify i fun t => some (t.setMaxLoadFactor factor, .unit)
  | .reserve i n => s.modify i fun t => do return (← t.reserve P n, .unit)
  | .rehash i buckets => s.modify i fun t => do return (← t.rehash P buckets, .unit)
  | .clear i => s.modify i fun t => some (t.clear, .unit)

def Maps.copy (s : Maps K V) (i other : Nat) : Option (Maps K V × Out K V) := do
  return (Function.update s i (some (← s other)), .unit)

def Maps.move (s : Maps K V) (i other : Nat) : Option (Maps K V × Out K V) := do
  return (Function.update (Function.update s other (some ∅)) i (some (← s other)), .unit)

/-- The same operation on maps, with the keys of each map in the order of iteration. It is `none` where the caller is at
fault: a table is constructed once and before it is used, and iterators are valid. -/
def refer (P : Params K V) (order : Nat → List K) (s : Maps K V) : Op K V → Option (Maps K V × Out K V)
  | .construct i => if (s i).isNone then some (Function.update s i (some ∅), .unit) else none
  | .copyConstruct i other => if (s i).isNone then s.copy i other else none
  | .moveConstruct i other => if (s i).isNone then s.move i other else none
  | .copyAssign i other => if (s i).isSome then s.copy i other else none
  | .moveAssign i other => if (s i).isSome then s.move i other else none
  | .emplace i key value | .insert i key value | .tryEmplace i key value => s.modify i fun m =>
    some (if key ∈ m then m else m.insert key value, .inserted (key, (m.lookup key).getD value) (decide (key ∉ m)))
  | .index i key => s.modify i fun m =>
    some (if key ∈ m then m else m.insert key P.value, .value ((m.lookup key).getD P.value))
  | .assign i key value => s.modify i fun m => some (m.insert key value, .unit)
  | .eraseKey i key => s.modify i fun m => some (m.erase key, .erased (if key ∈ m then 1 else 0))
  | .eraseIterator i pos => s.modify i fun m => do return (m.erase (← (order i)[pos]?), .unit)
  | .prioritise i key => s.modify i fun m => some (m, .found ((m.lookup key).map fun v => (key, v)))
  | .maxLoadFactor i _ | .reserve i _ | .rehash i _ => s.modify i fun m => some (m, .unit)
  | .clear i => s.modify i fun _ => some (∅, .unit)

def iterationOrder (s : Tables P) (i : Nat) : List K := (((s i).bind Table.entries).getD []).map Prod.fst

inductive TableStep (P : Params K V) : Tables P × Maps K V → Tables P × Maps K V → Prop
  | op {s s' : Tables P} {r r' : Maps K V} {out out' : Out K V} (op : Op K V)
      (referred : refer P (iterationOrder s) r op = some (r', out)) (applied : apply P s op = some (s', out')) :
      TableStep P (s, r) (s', r')

abbrev TableReachable (P : Params K V) : Tables P × Maps K V → Prop :=
  Reachable (· = (fun _ => none, fun _ => none)) (TableStep P)

abbrev Sim (P : Params K V) : Tables P → Maps K V → Prop := Paired (Refines P)

variable {s s' : Tables P} {r r' : Maps K V} {out : Out K V} {t : Table K V P.doubles} {m : Finmap fun _ : K => V}

theorem Refines.inserted (refines : Refines P t m) (key : K)
    (v : V) : ∃ t', PoolHashTable.inserted (t.emplace P (key, v)) =
      some (t', .inserted (key, (m.lookup key).getD v) (decide (key ∉ m))) ∧
      Refines P t' (if key ∈ m then m else m.insert key v) := by
  obtain ⟨o, t', emplaced, refines', mem⟩ := refines.emplace key v
  refine ⟨t', ?_, refines'⟩
  have item := (node_of_mem_slots mem).2.2.2
  simp only [PoolHashTable.inserted, emplaced, Option.bind_eq_bind, Option.bind_some, item]
  rfl

theorem Sim.order (refines : Refines P t m) {i : Nat}
    (here : s i = some t) : iterationOrder s i = (contents t).map Prod.fst := by
  rw [iterationOrder, here, Option.bind_some, refines.wellFormed.entries, Option.getD_some]

theorem Sim.copy {i other : Nat} (sim : Sim P s r) (copied : r.copy i other = some (r', out)) :
    ∃ s', PoolHashTable.apply P s (.copyConstruct i other) = some (s', out) ∧ Sim P s' r' := by
  obtain ⟨m, there, same⟩ := Option.bind_eq_some_iff.1 copied
  cases same
  obtain ⟨t, here, refines⟩ := sim.get there
  obtain ⟨t', copied', refines'⟩ := refines.copyConstruct
  refine ⟨_, ?_, sim.update i refines'⟩
  simp only [PoolHashTable.apply, here, Option.bind_eq_bind, Option.bind_some, copied']
  rfl

theorem Sim.move {i other : Nat} (sim : Sim P s r) (moved : r.move i other = some (r', out)) :
    ∃ s', PoolHashTable.apply P s (.moveConstruct i other) = some (s', out) ∧ Sim P s' r' := by
  obtain ⟨m, there, same⟩ := Option.bind_eq_some_iff.1 moved
  cases same
  obtain ⟨t, here, refines⟩ := sim.get there
  refine ⟨_, ?_, (sim.update other (movedFrom_refines P t)).update i refines⟩
  simp only [PoolHashTable.apply, here, Option.bind_eq_bind, Option.bind_some]
  rfl

theorem Sim.apply (sim : Sim P s r) {op : Op K V} (referred : refer P (iterationOrder s) r op = some (r', out)) :
    ∃ s', apply P s op = some (s', out) ∧ Sim P s' r' := by
  cases op with
  | construct i =>
    obtain ⟨-, same⟩ := Option.ite_none_right_eq_some.1 referred
    cases same
    exact ⟨_, rfl, sim.update i (construct_refines P)⟩
  | copyConstruct i other => exact sim.copy (Option.ite_none_right_eq_some.1 referred).2
  | moveConstruct i other => exact sim.move (Option.ite_none_right_eq_some.1 referred).2
  | copyAssign i other => exact sim.copy (Option.ite_none_right_eq_some.1 referred).2
  | moveAssign i other => exact sim.move (Option.ite_none_right_eq_some.1 referred).2
  | emplace i key value =>
    refine sim.modify (fun t m m' out _ refines step => ?_) referred
    cases step
    exact refines.inserted key value
  | insert i key value =>
    refine sim.modify (fun t m m' out _ refines step => ?_) referred
    cases step
    exact refines.inserted key value
  | tryEmplace i key value =>
    refine sim.modify (fun t m m' out _ refines step => ?_) referred
    cases step
    exact refines.inserted key value
  | index i key =>
    refine sim.modify (fun t m m' out _ refines step => ?_) referred
    cases step
    obtain ⟨o, t', index, refines', mem⟩ := refines.index key
    have item := (node_of_mem_slots mem).2.2.2
    refine ⟨t', ?_, refines'⟩
    simp only [index, item, Option.bind_eq_bind, Option.bind_some]
    rfl
  | assign i key value =>
    refine sim.modify (fun t m m' out _ refines step => ?_) referred
    cases step
    obtain ⟨t', assigned, refines'⟩ := refines.assign key value
    exact ⟨t', by rw [assigned]; rfl, refines'⟩
  | eraseKey i key =>
    refine sim.modify (fun t m m' out _ refines step => ?_) referred
    cases step
    obtain ⟨t', erased, refines'⟩ := refines.eraseKey key
    exact ⟨t', by rw [erased]; rfl, refines'⟩
  | eraseIterator i pos =>
    refine sim.modify (fun t m m' out here refines step => ?_) referred
    obtain ⟨key, at_, same⟩ := Option.bind_eq_some_iff.1 step
    cases same
    rw [Sim.order refines here, contents, List.map_map, List.getElem?_map] at at_
    obtain ⟨⟨o, x⟩, slot, rfl⟩ := Option.map_eq_some_iff.1 at_
    obtain ⟨it, t', erased, refines'⟩ := refines.eraseIterator (List.mem_of_getElem? slot)
    refine ⟨t', ?_, refines'⟩
    have node : ((slotsOf t t.offsets).map Prod.fst)[pos]? = some o := by
      rw [List.getElem?_map, slot]
      rfl
    simp only [refines.wellFormed.filled.iteration, node, erased, Option.bind_eq_bind, Option.bind_some]
    rfl
  | prioritise i key =>
    refine sim.modify (fun t m m' out _ refines step => ?_) referred
    cases step
    obtain ⟨o, t', moved, refines', found⟩ := refines.prioritise key
    refine ⟨t', ?_, refines'⟩
    rw [moved, Option.bind_eq_bind, Option.bind_some]
    rcases found with ⟨rfl, absent⟩ | ⟨v, mem, lookup⟩
    · rw [Finmap.lookup_eq_none.2 absent]
      rfl
    · obtain ⟨pos, -, -, item⟩ := node_of_mem_slots mem
      have some_ : o ≠ 0 := Nat.ne_of_gt pos
      simp only [if_neg some_, item, lookup]
      rfl
  | maxLoadFactor i factor =>
    refine sim.modify (fun t m m' out _ refines step => ?_) referred
    cases step
    exact ⟨_, rfl, refines.setMaxLoadFactor factor⟩
  | reserve i n =>
    refine sim.modify (fun t m m' out _ refines step => ?_) referred
    cases step
    obtain ⟨t', reserved, resized⟩ := refines.wellFormed.reserve refines.limit n
    exact ⟨t', by rw [reserved]; rfl, resized.refines refines⟩
  | rehash i buckets =>
    refine sim.modify (fun t m m' out _ refines step => ?_) referred
    cases step
    obtain ⟨t', rehashed, resized⟩ := refines.wellFormed.rehash refines.limit buckets
    exact ⟨t', by rw [rehashed]; rfl, resized.refines refines⟩
  | clear i =>
    refine sim.modify (fun t m m' out _ refines step => ?_) referred
    cases step
    exact ⟨_, rfl, refines.clear⟩

theorem sim_reachable {x : Tables P × Maps K V} (reachable : TableReachable P x) : Sim P x.1 x.2 := by
  refine Reachable.invariant (fun x => Sim P x.1 x.2) ?_ ?_ reachable
  · rintro x rfl
    exact paired_none
  · rintro x y sim ⟨op, referred, applied⟩
    obtain ⟨s', applied', sim'⟩ := sim.apply referred
    rw [applied'] at applied
    cases applied
    exact sim'

structure Shows (P : Params K V) (t : Table K V P.doubles) (m : Finmap fun _ : K => V) : Prop where
  free : ∃ free, Ring t.next t.prev 0 free ∧ free.Nodup ∧
    ∀ o, o ∈ free ↔ 1 ≤ o ∧ o ≤ t.numNodes ∧ t.tag o = .empty
  chains : ∃ chain : Nat → List (Slot K V),
    (∀ h ≤ t.numNodes, Chained P t h (chain h) ∧ ((chain h).map Prod.fst).Nodup) ∧
    ∀ o, 1 ≤ o → o ≤ t.numNodes → t.tag o ≠ .empty → ∃! h, h ≤ t.numNodes ∧ o ∈ (chain h).map Prod.fst
  settled : ∀ o, 1 ≤ o → o ≤ t.numNodes → t.tag o ≠ .rehash
  items : t.numItems = (t.offsets.filter fun o => !t.isEmpty o).length
  iteration : ∃ xs, t.entries = some xs ∧ (xs.map Prod.fst).Nodup ∧ ∀ k v, (k, v) ∈ xs ↔ m.lookup k = some v
  size : t.size = m.keys.card
  find : ∀ k, ∃ o, t.find P k = some o ∧ (o = 0 ↔ k ∉ m) ∧ ∀ v, m.lookup k = some v → t.item o = some (k, v)
  count : ∀ k, t.count P k = some (if k ∈ m then 1 else 0)
  at_ : ∀ k, t.at? P k = some (m.lookup k)

theorem Refines.shows (refines : Refines P t m) : Shows P t m := by
  obtain ⟨free, chain, arranged⟩ := refines.wellFormed
  have layout := arranged.layout
  have size := refines.wellFormed.size
  refine ⟨⟨free, layout.ring, (List.nodup_cons.1 layout.root_nodup).2, fun o => layout.mem_free⟩,
    ⟨chain, fun h le => ⟨layout.chains h le, layout.chain_nodup le⟩, fun o pos le used => ?_⟩, fun o pos le rehash => ?_,
    ?_, ⟨contents t, refines.wellFormed.entries, refines.lists.nodup, fun k v => ?_⟩, ?_, fun k => ?_, refines.count,
    refines.at_⟩
  · obtain ⟨h, le', s, mem, rfl⟩ := layout.slot_of_tag pos le used
    refine ⟨h, ⟨le', List.mem_map_of_mem mem⟩, ?_⟩
    rintro h' ⟨le'', mem'⟩
    obtain ⟨s', mem', same⟩ := List.mem_map.1 mem'
    exact (layout.slot_unique le'' le' mem' mem same).2
  · obtain ⟨h, le', s, mem, rfl⟩ := layout.slot_of_tag pos le (by simp [rehash])
    rcases layout.tag_of_mem le' mem with ⟨tag, -⟩ | ⟨tag, -⟩
    · cases tag.symm.trans rehash
    · cases tag.symm.trans rehash
  · rw [refines.wellFormed.filled.used_offsets fun o mem => Layout.mem_offsets.1 mem, size, contents, List.length_map,
      List.length_map]
  · rw [refines.lists.lookup]
    constructor
    · intro mem
      exact ⟨(k, v), mem, rfl, rfl⟩
    · rintro ⟨x, mem, rfl, rfl⟩
      exact mem
  · rw [Table.size, size, refines.lists.length]
  · obtain ⟨o, find, ⟨rfl, absent⟩ | ⟨w, mem, lookup⟩⟩ := refines.find k
    · refine ⟨0, find, iff_of_true rfl absent, fun v lookup => ?_⟩
      exact absurd (Finmap.mem_iff.2 ⟨v, lookup⟩) absent
    · obtain ⟨pos, -, -, item⟩ := node_of_mem_slots mem
      have there : k ∈ m := Finmap.mem_iff.2 ⟨w, lookup⟩
      refine ⟨o, find, iff_of_false (Nat.ne_of_gt pos) (not_not_intro there), fun v lookup' => ?_⟩
      rw [item, Option.some.inj (lookup.symm.trans lookup')]

theorem TableReachable.extend (reachable : TableReachable P (s, r)) (op : Op K V)
    (referred : refer P (iterationOrder s) r op = some (r', out)) : ∃ s', TableReachable P (s', r') := by
  obtain ⟨s', applied, -⟩ := (sim_reachable reachable).apply referred
  exact ⟨s', reachable.next (.op op referred applied)⟩

end Prpc.PoolHashTable
