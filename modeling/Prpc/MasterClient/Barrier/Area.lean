import Prpc.MasterClient.Barrier.Model

namespace Prpc.MasterClient
open Lib Master

variable {b : Barrier} {m m' : State} {c : ClientId} {G : Nat} {Q : Nat → Option ClientId}
  {leader : Option ClientId}

def Barrier.base (b : Barrier) : Text := b.root.join b.basePath
def Barrier.nodes (b : Barrier) : Text := b.root.join b.nodePath
def Barrier.ready (b : Barrier) : Text := b.root.join b.readyPath

theorem Barrier.base_eq (b : Barrier) : b.base = child (b.root.join pathBarrier) b.name :=
  join_child b.root pathBarrier b.name

theorem Barrier.nodes_eq (b : Barrier) : b.nodes = child b.base "node".toList :=
  join_child b.root b.basePath _

theorem Barrier.ready_eq (b : Barrier) : b.ready = child b.base "ready".toList :=
  join_child b.root b.basePath _

theorem segment_node : Segment "node".toList := by decide
theorem segment_ready : Segment "ready".toList := by decide

theorem Barrier.ready_ne_nodes (b : Barrier) : b.ready ≠ b.nodes := by
  rw [Barrier.ready_eq, Barrier.nodes_eq, ne_eq, child_right_inj]
  decide

theorem Barrier.ready_ne_child (b : Barrier) (k : Text) : b.ready ≠ child b.nodes k := by
  rw [Barrier.ready_eq, Barrier.nodes_eq, child_assoc, ne_eq, child_right_inj]
  intro eq
  exact segment_ready.noSlash (eq ▸ slash_mem_child _ k)

theorem Barrier.base_ne_nodes (b : Barrier) : b.base ≠ b.nodes := by
  rw [Barrier.nodes_eq]
  exact (child_ne_self _ _).symm

theorem Barrier.base_ne_ready (b : Barrier) : b.base ≠ b.ready := by
  rw [Barrier.ready_eq]
  exact (child_ne_self _ _).symm

theorem Barrier.base_ne_child (b : Barrier) (k : Text) : b.base ≠ child b.nodes k := by
  rw [Barrier.nodes_eq, child_assoc]
  exact (child_ne_self _ _).symm

theorem Barrier.dir_ne_base (b : Barrier) : b.root.join pathBarrier ≠ b.base := by
  rw [Barrier.base_eq]
  exact (child_ne_self _ _).symm

theorem Barrier.dir_ne_nodes (b : Barrier) : b.root.join pathBarrier ≠ b.nodes := by
  rw [Barrier.nodes_eq, Barrier.base_eq, child_assoc]
  exact (child_ne_self _ _).symm

theorem Barrier.dir_ne_ready (b : Barrier) : b.root.join pathBarrier ≠ b.ready := by
  rw [Barrier.ready_eq, Barrier.base_eq, child_assoc]
  exact (child_ne_self _ _).symm

theorem Barrier.dir_ne_child (b : Barrier) (k : Text) : b.root.join pathBarrier ≠ child b.nodes k := by
  rw [Barrier.nodes_eq, Barrier.base_eq, child_assoc, child_assoc]
  exact (child_ne_self _ _).symm

structure Area (b : Barrier) (m : State) (G : Nat) (Q : Nat → Option ClientId)
    (leader : Option ClientId) : Prop where
  segment : Segment b.name
  tree : Tree m
  dir : ∃ d, m.path.lookup (b.root.join pathBarrier) = some d ∧ d.owner = none
  base : ∀ d, m.path.lookup b.base = some d → d.owner = none
  queue : b.nodes ∈ m.path → Queue m b.nodes G Q
  absent : b.nodes ∉ m.path → G = 0 ∧ ∀ i, Q i = none
  ready : (m.path.lookup b.ready).map MasterNode.owner = leader.map some

structure Keeps (b : Barrier) (m m' : State) : Prop where
  base : b.base ∈ m.path → b.base ∈ m'.path
  nodes : b.nodes ∈ m.path → b.nodes ∈ m'.path

theorem Keeps.refl (b : Barrier) (m : State) : Keeps b m m := ⟨id, id⟩

section
variable (area : Area b m G Q leader)
include area

theorem Area.valid_base : masterCheckValidPath b.base = true :=
  valid_join_child b.root segment_pathBarrier area.segment

theorem Area.valid_nodes : masterCheckValidPath b.nodes = true := by
  rw [Barrier.nodes_eq]
  exact valid_child_of_segment (.inr area.valid_base) segment_node

theorem Area.valid_ready : masterCheckValidPath b.ready = true := by
  rw [Barrier.ready_eq]
  exact valid_child_of_segment (.inr area.valid_base) segment_ready

end

theorem Area.ready_none (area : Area b m G Q none) : b.ready ∉ m.path := by
  have h := area.ready
  rw [Option.map_none, Option.map_eq_none_iff] at h
  rw [mem_path_iff]
  rintro ⟨n, hn⟩
  rw [h] at hn
  cases hn

theorem Area.ready_some (area : Area b m G Q (some c)) :
    ∃ n, m.path.lookup b.ready = some n ∧ n.owner = some c := by
  have h := area.ready
  rw [Option.map_some, Option.map_eq_some_iff] at h
  exact h

section
variable (area : Area b m G Q leader)
include area

theorem Area.watch_ready : treeWatch b.root m c b.readyPath = (m, some ()) :=
  treeWatch_eq area.tree area.valid_ready

theorem Area.watch_nodes : treeWatch b.root m c b.nodePath = (m, some ()) :=
  treeWatch_eq area.tree area.valid_nodes

theorem Area.get_ready : ∃ value, treeNodeGet b.root m c b.readyPath = (m, some value) ∧
      (value = none ↔ leader = none) := by
  refine ⟨_, treeNodeGet_eq area.tree area.valid_ready, ?_⟩
  have h := congrArg Option.isSome area.ready
  rw [Option.isSome_map, Option.isSome_map] at h
  rw [Option.map_eq_none_iff, ← Option.not_isSome_iff_eq_none, ← Option.not_isSome_iff_eq_none]
  exact not_congr (Bool.eq_iff_iff.1 h)

theorem Area.read_nodes (mem : b.nodes ∈ m.path) : treeNodeSub b.root m c b.nodePath =
      (m, some (some ((tickets G Q).sort.map fun i : Nat => genKey i))) :=
  (area.queue mem).children area.tree

end

theorem Area.of_base (area : Area b m G Q leader) (same : SameExcept {b.base, b.root.join pathBarrier} m m')
    (tree : Tree m') (dir : ∃ d, m'.path.lookup (b.root.join pathBarrier) = some d ∧ d.owner = none)
    (base : ∀ d, m'.path.lookup b.base = some d → d.owner = none) :
    Area b m' G Q leader ∧ (b.nodes ∈ m.path → b.nodes ∈ m'.path) := by
  have nodes : m'.path.lookup b.nodes = m.path.lookup b.nodes ∧ m'.gen b.nodes = m.gen b.nodes :=
    same b.nodes (by simp [b.base_ne_nodes.symm, b.dir_ne_nodes.symm])
  have mem_iff : b.nodes ∈ m'.path ↔ b.nodes ∈ m.path := by
    rw [mem_path_iff, mem_path_iff, nodes.1]
  refine ⟨⟨area.segment, tree, dir, base, fun mem => ?_, fun notMem => ?_, ?_⟩, mem_iff.2⟩
  · refine (area.queue (mem_iff.1 mem)).same nodes.1 nodes.2 fun i _ => (same _ ?_).1
    simp [(b.base_ne_child _).symm, (b.dir_ne_child _).symm]
  · exact area.absent fun mem => notMem (mem_iff.2 mem)
  · rw [(same b.ready (by simp [b.base_ne_ready.symm, b.dir_ne_ready.symm])).1]
    exact area.ready

theorem Area.add_base (area : Area b m G Q leader) :
    ∃ m' added, treeNodeAdd b.root m c b.basePath [] false = (m', some added) ∧
      Area b m' G Q leader ∧ Keeps b m m' ∧ b.base ∈ m'.path := by
  obtain ⟨d, hd, persistent⟩ := area.dir
  rcases treeNodeAdd_child area.tree c [] false area.segment hd persistent with
    ⟨mem, eq⟩ | ⟨addable, eq⟩
  · exact ⟨m, false, eq, area, .refl b m, mem⟩
  · change Addable m b.base d at addable
    have parent : parentOf b.base = b.root.join pathBarrier := by
      rw [Barrier.base_eq, parentOf_child area.segment.noSlash]
    have same := addedNode_sameExcept c [] false addable
    have lookup := lookup_addedNode_child m c (b.root.join pathBarrier) [] false d area.segment.noSlash
    rw [← Barrier.base_eq] at lookup
    have lookup_base := (lookup b.base).trans ((if_neg b.dir_ne_base.symm).trans (if_pos rfl))
    obtain ⟨area', nodes⟩ := area.of_base (parent ▸ same) (area.tree.added c [] false addable)
      ⟨_, (lookup _).trans (if_pos rfl), persistent⟩ (fun d' hd' => by
        rw [lookup_base] at hd'
        cases hd'
        rfl)
    have mem := mem_path_iff.2 ⟨_, lookup_base⟩
    exact ⟨_, true, eq, area', ⟨fun _ => mem, nodes⟩, mem⟩

theorem Area.lookup_base (area : Area b m G Q leader) (mem : b.base ∈ m.path) :
    ∃ d, m.path.lookup b.base = some d ∧ d.owner = none := by
  obtain ⟨d, hd⟩ := mem_path_iff.1 mem
  exact ⟨d, hd, area.base d hd⟩

theorem Area.add_node (area : Area b m G Q leader) (mem : b.base ∈ m.path) :
    ∃ m' added, treeNodeAdd b.root m c b.nodePath [] false = (m', some added) ∧
      Area b m' G Q leader ∧ Keeps b m m' ∧ b.nodes ∈ m'.path := by
  obtain ⟨d, hd, persistent⟩ := area.lookup_base mem
  rcases treeNodeAdd_child area.tree c [] false segment_node hd persistent with
    ⟨mem, eq⟩ | ⟨addable, eq⟩
  · exact ⟨m, false, eq, area, .refl b m, mem⟩
  · change Addable m b.nodes d at addable
    have lookup := lookup_addedNode_child m c b.base [] false d segment_node.noSlash
    rw [← Barrier.nodes_eq] at lookup
    have same := addedNode_sameExcept c [] false addable
    rw [Barrier.nodes_eq, parentOf_child segment_node.noSlash, ← Barrier.nodes_eq] at same
    have fresh := area.absent addable.fresh
    have created := Queue.created area.tree c [] addable
    have mem_nodes := mem_path_iff.2
      ⟨_, (lookup b.nodes).trans ((if_neg b.base_ne_nodes.symm).trans (if_pos rfl))⟩
    have mem_base := mem_path_iff.2 ⟨_, (lookup b.base).trans (if_pos rfl)⟩
    refine ⟨addedNode m c b.nodes [] false d, true, eq,
      ⟨area.segment, area.tree.added c [] false addable, ?_, ?_, ?_, ?_, ?_⟩,
      ⟨fun _ => mem_base, fun _ => mem_nodes⟩, mem_nodes⟩
    · rw [(same _ (by simp [Barrier.dir_ne_base, Barrier.dir_ne_nodes])).1]
      exact area.dir
    · intro d' hd'
      rw [(lookup b.base).trans (if_pos rfl)] at hd'
      cases hd'
      exact persistent
    · intro _
      rw [fresh.1, show Q = fun _ => none from funext fresh.2]
      exact created
    · exact fun notMem => absurd mem_nodes notMem
    · rw [(same _ (by simp [Barrier.ready_ne_nodes, b.base_ne_ready.symm])).1]
      exact area.ready

theorem Area.of_queue {k : Text} {G' : Nat} {Q' : Nat → Option ClientId}
    (area : Area b m G Q leader) (tree : Tree m') (queue : Queue m' b.nodes G' Q')
    (same : SameExcept {b.nodes, child b.nodes k} m m') :
    Area b m' G' Q' leader ∧ Keeps b m m' := by
  have base := (same b.base (by simp [Barrier.base_ne_nodes, Barrier.base_ne_child])).1
  obtain ⟨d, hd, -⟩ := queue.node
  have mem := mem_path_iff.2 ⟨d, hd⟩
  refine ⟨⟨area.segment, tree, ?_, ?_, fun _ => queue, fun notMem => absurd mem notMem, ?_⟩, ?_, fun _ => mem⟩
  · rw [(same _ (by simp [Barrier.dir_ne_nodes, Barrier.dir_ne_child])).1]
    exact area.dir
  · rw [base]
    exact area.base
  · rw [(same _ (by simp [Barrier.ready_ne_nodes, Barrier.ready_ne_child])).1]
    exact area.ready
  · rw [mem_path_iff, mem_path_iff, base]
    exact id

section
variable (area : Area b m G Q leader)
include area

theorem Area.draw (mem : b.nodes ∈ m.path) (room : 0 ≤ m.gen b.nodes) :
    ∃ m', treeNodeGen b.root m c b.nodePath [] true = (m', some (genKey G)) ∧
      Area b m' (G + 1) (Function.update Q G (some c)) leader ∧ Keeps b m m' := by
  obtain ⟨m', eq, tree, queue, same⟩ := (area.queue mem).draw (c := c) area.tree room
  obtain ⟨area', keeps⟩ := area.of_queue tree queue same
  exact ⟨m', eq, area', keeps⟩

theorem Area.mem_nodes {i : Nat} (h : Q i ≠ none) : b.nodes ∈ m.path := by
  by_contra notMem
  exact h ((area.absent notMem).2 i)

theorem Area.giveBack {i : Nat} {owner : ClientId}
    (h : Q i = some owner) :
    ∃ m', treeNodeDel b.root m c (child b.nodePath (genKey i)) = (m', some true) ∧
      Area b m' G (Function.update Q i none) leader ∧ Keeps b m m' := by
  have queue := area.queue (area.mem_nodes (i := i) (by simp [h]))
  obtain ⟨m', eq, tree, queue', same⟩ := queue.giveBack (c := c) area.tree h
  obtain ⟨area', keeps⟩ := area.of_queue tree queue' same
  exact ⟨m', eq, area', keeps⟩

end

theorem Area.of_ready (area : Area b m G Q leader) (leader' : Option ClientId) (tree : Tree m')
    (base : ∃ d, m'.path.lookup b.base = some d ∧ d.owner = none)
    (ready : (m'.path.lookup b.ready).map MasterNode.owner = leader'.map some)
    (same : SameExcept {b.ready, b.base} m m') :
    Area b m' G Q leader' ∧ Keeps b m m' := by
  have nodes : m'.path.lookup b.nodes = m.path.lookup b.nodes ∧ m'.gen b.nodes = m.gen b.nodes :=
    same b.nodes (by simp [b.base_ne_nodes.symm, b.ready_ne_nodes.symm])
  have mem_iff : b.nodes ∈ m'.path ↔ b.nodes ∈ m.path := by
    rw [mem_path_iff, mem_path_iff, nodes.1]
  obtain ⟨d, hd, persistent⟩ := base
  refine ⟨⟨area.segment, tree, ?_, ?_, fun mem => ?_, fun notMem => ?_, ready⟩,
    fun _ => mem_path_iff.2 ⟨d, hd⟩, mem_iff.2⟩
  · rw [(same _ (by simp [Barrier.dir_ne_base, Barrier.dir_ne_ready])).1]
    exact area.dir
  · intro d' hd'
    rw [hd] at hd'
    cases hd'
    exact persistent
  · refine (area.queue (mem_iff.1 mem)).same nodes.1 nodes.2 fun i _ => (same _ ?_).1
    simp [(b.base_ne_child _).symm, (b.ready_ne_child _).symm]
  · exact area.absent fun mem => notMem (mem_iff.2 mem)

theorem Area.add_ready (area : Area b m G Q none) (mem : b.base ∈ m.path) :
    ∃ m', treeNodeAdd b.root m c b.readyPath [] true = (m', some true) ∧
      Area b m' G Q (some c) ∧ Keeps b m m' := by
  obtain ⟨d, hd, persistent⟩ := area.lookup_base mem
  rcases treeNodeAdd_child area.tree c [] true segment_ready hd persistent with
    ⟨mem, -⟩ | ⟨addable, eq⟩
  · exact absurd mem area.ready_none
  · change Addable m b.ready d at addable
    have lookup := lookup_addedNode_child m c b.base [] true d segment_ready.noSlash
    rw [← Barrier.ready_eq] at lookup
    have same := addedNode_sameExcept c [] true addable
    rw [Barrier.ready_eq, parentOf_child segment_ready.noSlash, ← Barrier.ready_eq] at same
    obtain ⟨area', keeps⟩ := area.of_ready (some c) (area.tree.added c [] true addable)
      ⟨_, (lookup b.base).trans (if_pos rfl), persistent⟩ (by
        rw [(lookup b.ready).trans ((if_neg b.base_ne_ready.symm).trans (if_pos rfl))]
        rfl) same
    exact ⟨_, eq, area', keeps⟩

theorem Area.del_ready (area : Area b m G Q (some c)) (client : ClientId) :
    ∃ m', treeNodeDel b.root m client b.readyPath = (m', some true) ∧ Area b m' G Q none ∧ Keeps b m m' := by
  obtain ⟨n, hn, owner⟩ := area.ready_some
  have deletable : Deletable m b.ready n := ⟨area.valid_ready, hn, area.tree.leaf _ n hn (by simp [owner])⟩
  obtain ⟨d, hd, persistent, eq⟩ := treeNodeDel_ok (c := client) area.tree deletable
  change m.path.lookup (parentOf b.ready) = some d at hd
  rw [Barrier.ready_eq, parentOf_child segment_ready.noSlash] at hd
  have inv := area.tree.toTreeInv.deleted deletable
    (by rw [Barrier.ready_eq, parentOf_child segment_ready.noSlash, hd])
  have lookup : ∀ p, (deletedNode m b.ready d).path.lookup p =
      if p = b.base then some { d with sub := d.sub.erase "ready".toList }
      else if p = b.ready then none else m.path.lookup p := by
    intro p
    show (removeNode m (parentOf b.ready) (keyOf b.ready) d).path.lookup p = _
    rw [lookup_removeNode, Barrier.ready_eq, parentOf_child segment_ready.noSlash,
      keyOf_child segment_ready.noSlash]
  have lookup_base := (lookup b.base).trans (if_pos rfl)
  have tree : Tree (deletedNode m b.ready d) := ⟨inv, root_mem_of_mem inv (mem_path_iff.2 ⟨_, lookup_base⟩)⟩
  obtain ⟨area', keeps⟩ := area.of_ready none tree ⟨_, lookup_base, persistent⟩ (by
    rw [(lookup b.ready).trans ((if_neg b.base_ne_ready.symm).trans (if_pos rfl))]
    rfl) (fun p hp => by
      simp only [Set.mem_insert_iff, Set.mem_singleton_iff, not_or] at hp
      rw [lookup, if_neg hp.2, if_neg hp.1, gen_deletedNode, if_neg hp.1]
      exact ⟨rfl, rfl⟩)
  exact ⟨_, eq, area', keeps⟩

theorem Area.other {req : Request} {path : Text} {out : Outcome} (area : Area b m G Q leader)
    (target : req.target = some path) (outside : ¬ Below (b.root.join pathBarrier) path)
    (handled : handleOp m c [] req = some out) :
    Area b out.state G Q leader ∧ Keeps b m out.state := by
  obtain ⟨d, hd, persistent⟩ := area.dir
  have same := handleOp_sameBelow area.tree.toTreeInv area.tree.rooted (.inl (mem_path_iff.2 ⟨d, hd⟩))
    target outside handled
  have below_base : Below (b.root.join pathBarrier) b.base := .inr ⟨b.name, b.base_eq⟩
  have below_nodes : Below (b.root.join pathBarrier) b.nodes := by
    rw [Barrier.nodes_eq]
    exact below_base.child _
  have below_ready : Below (b.root.join pathBarrier) b.ready := by
    rw [Barrier.ready_eq]
    exact below_base.child _
  have mem_iff : b.nodes ∈ out.state.path ↔ b.nodes ∈ m.path := by
    rw [mem_path_iff, mem_path_iff, (same _ below_nodes).1]
  refine ⟨⟨area.segment, area.tree.of_handleOp ?_ handled, ?_, ?_, fun mem => ?_, fun notMem => ?_,
    ?_⟩, ?_, mem_iff.2⟩
  · rintro rfl
    cases target
  · rw [(same _ (.refl _)).1]
    exact area.dir
  · rw [(same _ below_base).1]
    exact area.base
  · exact (area.queue (mem_iff.1 mem)).sameBelow below_nodes same
  · exact area.absent fun mem => notMem (mem_iff.2 mem)
  · rw [(same _ below_ready).1]
    exact area.ready
  · rw [mem_path_iff, mem_path_iff, (same _ below_base).1]
    exact id

end Prpc.MasterClient
