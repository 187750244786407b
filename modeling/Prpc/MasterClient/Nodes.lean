import Prpc.MasterClient.TicketQueue

namespace Prpc.MasterClient
open Lib Master

variable {root : RootPath} {m m' : State} {c : ClientId} {path value : Text} {ephemeral : Bool}

def info (m : State) (p : Text) : Option (Option ClientId × Text) :=
  (m.path.lookup p).map fun n => (n.owner, n.value)

def Persistent (m : State) (p : Text) : Prop := ∃ v, info m p = some (none, v)

variable {p : Text}

theorem info_eq_none : info m p = none ↔ p ∉ m.path := by
  rw [info, Option.map_eq_none_iff, Finmap.lookup_eq_none]

theorem info_eq_some {o : Option ClientId} {v : Text} :
    info m p = some (o, v) ↔ ∃ n, m.path.lookup p = some n ∧ n.owner = o ∧ n.value = v := by
  simp [info]

theorem info_insertNode {s : State} {parent key : Text} {pit : MasterNode} (node : MasterNode)
    (hp : s.path.lookup parent = some pit) (p : Text) :
    info (insertNode s parent key pit node) p =
      if p = child parent key then some (node.owner, node.value) else info s p := by
  unfold info
  rw [lookup_insertNode]
  by_cases eq : p = parent
  · subst eq
    simp [hp, (child_ne_self p key).symm]
  · rw [if_neg eq]
    split <;> rfl

theorem info_removeNode {s : State} {parent : Text} (key : Text) {pit : MasterNode}
    (hp : s.path.lookup parent = some pit) (p : Text) :
    info (removeNode s parent key pit) p = if p = child parent key then none else info s p := by
  unfold info
  rw [lookup_removeNode]
  by_cases eq : p = parent
  · subst eq
    simp [hp, (child_ne_self p key).symm]
  · rw [if_neg eq]
    split <;> rfl

theorem Persistent.mem (persistent : Persistent m p) : p ∈ m.path := by
  obtain ⟨v, hv⟩ := persistent
  obtain ⟨n, hn, -⟩ := info_eq_some.1 hv
  exact mem_path_iff.2 ⟨n, hn⟩

theorem info_child_none {p k : Text} (tree : Tree m) (absent : info m p = none)
    (slash : '/' ∉ k) : info m (child p k) = none := by
  rw [info_eq_none] at absent ⊢
  intro mem
  obtain ⟨n, hn⟩ := mem_path_iff.1 mem
  obtain ⟨pit, hp, -⟩ := tree.parent _ n hn (by simp [child])
  rw [parentOf_child slash] at hp
  exact absent (mem_path_iff.2 ⟨pit, hp⟩)

structure Puts (m m' : State) (p : Text) (node : Option (Option ClientId × Text)) : Prop where
  tree : Tree m'
  nodes : ∀ q, info m' q = if q = p then node else info m q

structure Added (m m' : State) (p : Text) (node : Option ClientId × Text) : Prop
    extends Puts m m' p (some node) where
  fresh : info m p = none
  gen : ∀ q, m'.gen q = m.gen q

theorem treeNodeAdd_spec (c : ClientId) (value : Text) (ephemeral : Bool) (tree : Tree m)
    (valid : masterCheckValidPath (root.join path) = true) :
    ∃ m' added, treeNodeAdd root m c path value ephemeral = (m', some added) ∧ (added = false ∧ m' = m ∧
          (Persistent m (parentOf (root.join path)) → info m (root.join path) ≠ none) ∨
        added = true ∧ Added m m' (root.join path) (ownerOf c ephemeral, value)) := by
  by_cases h : ∃ pit, Addable m (root.join path) pit
  · obtain ⟨pit, addable⟩ := h
    refine ⟨_, true, treeNodeAdd_ok tree addable, .inr ⟨rfl, ⟨tree.added c value ephemeral addable,
      fun q => ?_⟩, info_eq_none.2 addable.fresh, fun q => rfl⟩⟩
    rw [addedNode, info_insertNode _ addable.parent, child_of_valid valid]
  · refine ⟨m, false, treeNodeAdd_refused tree valid (not_exists.1 h), .inl ⟨rfl, rfl, ?_⟩⟩
    rintro ⟨v, hv⟩ absent
    obtain ⟨pit, hp, persistent, -⟩ := info_eq_some.1 hv
    exact h ⟨pit, valid, hp, persistent, info_eq_none.1 absent⟩

structure Deleted (m m' : State) (p : Text) : Prop extends Puts m m' p none where
  present : info m p ≠ none
  childless : ∀ k, '/' ∉ k → info m (child p k) = none
  gen : ∀ q, m'.gen q = if q = p then 0 else m.gen q

theorem mem_sub_iff (tree : Tree m) {p k : Text} {n : MasterNode} (hn : m.path.lookup p = some n) :
    k ∈ n.sub ↔ '/' ∉ k ∧ info m (child p k) ≠ none := by
  rw [ne_eq, info_eq_none, not_not]
  refine ⟨tree.children p n hn k, fun ⟨slash, mem⟩ => ?_⟩
  obtain ⟨it, hit⟩ := mem_path_iff.1 mem
  obtain ⟨pit, hp, -, key⟩ := tree.parent _ it hit (by simp [child])
  rw [parentOf_child slash, hn] at hp
  cases hp
  rwa [keyOf_child slash] at key

theorem childless_iff (tree : Tree m) {n : MasterNode} (hn : m.path.lookup p = some n) :
    n.sub = ∅ ↔ ∀ k, '/' ∉ k → info m (child p k) = none := by
  simp only [Finset.eq_empty_iff_forall_notMem, mem_sub_iff tree hn, not_and, not_not]

theorem treeNodeDel_spec (c : ClientId) (tree : Tree m)
    (valid : masterCheckValidPath (root.join path) = true) :
    ∃ m' deleted, treeNodeDel root m c path = (m', some deleted) ∧
      (deleted = false ∧ m' = m ∧ (info m (root.join path) = none ∨
          ¬ ∀ k, '/' ∉ k → info m (child (root.join path) k) = none) ∨
        deleted = true ∧ Deleted m m' (root.join path)) := by
  by_cases h : ∃ it, Deletable m (root.join path) it
  · obtain ⟨it, deletable⟩ := h
    obtain ⟨pit, hp, -, eq⟩ := treeNodeDel_ok (c := c) tree deletable
    have parent : (deletedNode m (root.join path) pit).path.lookup (parentOf (root.join path)) =
        some { pit with sub := pit.sub.erase (keyOf (root.join path)) } := by
      show (removeNode m _ _ pit).path.lookup _ = _
      rw [lookup_removeNode, if_pos rfl]
    refine ⟨_, true, eq, .inr ⟨rfl, ⟨.of_lookup (tree.toTreeInv.deleted deletable hp) parent,
      fun q => ?_⟩, ?_, (childless_iff tree deletable.node).1 deletable.childless,
      gen_deletedNode m _ pit⟩⟩
    · show info (removeNode m _ _ pit) q = _
      rw [info_removeNode _ hp, child_of_valid valid]
    · rw [ne_eq, info_eq_none, not_not]
      exact mem_path_iff.2 ⟨it, deletable.node⟩
  · refine ⟨m, false, treeNodeDel_refused tree valid (not_exists.1 h), .inl ⟨rfl, rfl, ?_⟩⟩
    cases hn : m.path.lookup (root.join path) with
    | none => exact .inl (by rw [info, hn]; rfl)
    | some n =>
      right
      rw [← childless_iff tree hn]
      exact fun empty => h ⟨n, valid, hn, empty⟩

structure Generated (m m' : State) (p : Text) (node : Option ClientId × Text) : Prop
    extends Puts m m' (child p (genKey (m.gen p))) (some node) where
  fresh : info m (child p (genKey (m.gen p))) = none
  gen : ∀ q, m'.gen q = if q = p then int32 (m.gen p + 1) else m.gen q

structure Skipped (m m' : State) (p : Text) : Prop where
  tree : Tree m'
  nodes : ∀ q, info m' q = info m q
  gen : (∀ q, m'.gen q = m.gen q) ∨ ∀ q, m'.gen q = if q = p then int32 (m.gen p + 1) else m.gen q

theorem treeNodeGen_spec (c : ClientId) (value : Text) (ephemeral : Bool) (tree : Tree m)
    (valid : masterCheckValidPath (root.join path) = true) :
    ∃ m' gen, treeNodeGen root m c path value ephemeral = (m', gen) ∧
      ((gen = none ∨ gen = some []) ∧ Skipped m m' (root.join path) ∨
        gen = some (genKey (m.gen (root.join path))) ∧
          Generated m m' (root.join path) (ownerOf c ephemeral, value)) := by
  set p := root.join path with hp
  by_cases h : ∃ pit, Generable m p pit ∧ (genKey (m.gen p)).length ≤ 11 ∧ child p (genKey (m.gen p)) ∉ m.path
  · obtain ⟨pit, generable, short, fresh⟩ := h
    have parent : (generatedNode m c p value ephemeral pit).path.lookup p =
        some { pit with sub := insert (genKey (m.gen p)) pit.sub } := by
      rw [generatedNode, lookup_insertNode, if_pos rfl]
    have inv := tree.toTreeInv.generated c value ephemeral generable fresh
    refine ⟨generatedNode m c p value ephemeral pit, some (genKey (m.gen p)), ?_, .inr ⟨rfl,
      ⟨.of_lookup inv parent, fun q => ?_⟩, info_eq_none.2 fresh, fun q => ?_⟩⟩
    · simp [treeNodeGen, call, ← hp, valid, handleOp, touchRoot_of_mem tree.rooted,
        masterGen_ok tree.toTreeInv generable short fresh, Response.code]
    · exact info_insertNode (s := bumpGen m p) _ generable.parent q
    · rw [generatedNode, gen_insertNode, gen_bumpGen]
  · obtain ⟨code, t, ok, ht, eq⟩ := masterGen_refused c value ephemeral h
    refine ⟨t, (treeNodeGen root m c path value ephemeral).2, ?_, .inl ⟨?_, ?_⟩⟩
    · simp [treeNodeGen, call, ← hp, valid, handleOp, touchRoot_of_mem tree.rooted, eq]
    · by_cases err : code = .ERROR
      · left
        simp [treeNodeGen, call, ← hp, valid, handleOp, touchRoot_of_mem tree.rooted, eq, Response.code, err]
      · right
        simp [treeNodeGen, call, ← hp, valid, handleOp, touchRoot_of_mem tree.rooted, eq, Response.code, err]
    · rcases ht with rfl | ⟨rfl, pit, generable⟩
      · exact ⟨tree, fun _ => rfl, .inl fun _ => rfl⟩
      · exact ⟨⟨tree.toTreeInv.bumped generable.parent generable.persistent, tree.rooted⟩,
          fun _ => rfl, .inr (gen_bumpGen m p)⟩

theorem Puts.of_ne {p q : Text} {node : Option (Option ClientId × Text)} (puts : Puts m m' p node)
    (ne : q ≠ p) : info m' q = info m q := by
  rw [puts.nodes, if_neg ne]

theorem Puts.persistent {p q : Text} {node : Option (Option ClientId × Text)}
    (puts : Puts m m' p node) (ne : q ≠ p) (persistent : Persistent m q) : Persistent m' q := by
  obtain ⟨v, hv⟩ := persistent
  exact ⟨v, (puts.of_ne ne).trans hv⟩

theorem treeNodeGet_info (tree : Tree m) (valid : masterCheckValidPath (root.join path) = true) :
    treeNodeGet root m c path = (m, some ((info m (root.join path)).map Prod.snd)) := by
  rw [treeNodeGet_eq tree valid, info, Option.map_map]
  rfl

theorem info_disconnected (tree : Tree m) {temp : List Text} (collects : Collects m c temp)
    {notified : List (ClientId × Text)}
    (clear : disconnectClearData m temp = some (m', notified)) :
    (∀ p, m'.gen p = m.gen p) ∧ ∀ p, info m' p = (info m p).filter fun node => node.1 ≠ some c := by
  obtain ⟨gens, lookups⟩ := disconnectClearData_lookup tree.toTreeInv collects clear
  refine ⟨gens, fun p => ?_⟩
  rw [info, lookups, withoutOwner]
  cases hn : m.path.lookup p with
  | none => simp [info, hn]
  | some n =>
    by_cases owned : n.owner = some c
    · rw [if_pos (mem_ownedPaths.2 ⟨n, hn, owned⟩)]
      simp [info, hn, owned, Option.filter]
    · rw [if_neg]
      · simp [info, hn, owned, Option.filter]
      · intro mem
        obtain ⟨n', hn', ho⟩ := mem_ownedPaths.1 mem
        rw [hn] at hn'
        cases hn'
        exact owned ho

theorem info_of_sameBelow {base p : Text} (same : SameBelow base m m') (below : Below base p) :
    info m' p = info m p := by
  rw [info, info, (same p below).1]

theorem call_state (m : State) (c : ClientId) (path : Text) (req : Request) : (call m c path req).1 = m ∨
      ∃ out, handleOp m c [] req = some out ∧ (call m c path req).1 = out.state := by
  unfold call
  split
  · split
    · exact .inl rfl
    · rename_i out handled
      exact .inr ⟨out, handled, rfl⟩
  · exact .inl rfl

theorem call_sameBelow {m : State} {c : ClientId} {base p path : Text} {req : Request}
    (tree : Tree m) (settled : base ∈ m.path ∨ ∀ q x, base ≠ child q (genKey x))
    (target : req.target = some p)
    (outside : ¬ Below base p) : SameBelow base m (call m c path req).1 := by
  rcases call_state m c path req with same | ⟨out, handled, same⟩
  · rw [same]
    exact .refl _ _
  · rw [same]
    exact handleOp_sameBelow tree.toTreeInv tree.rooted settled target outside handled

def RootPath.node (root : RootPath) (segs : List Text) : Text := segs.foldl child root.dir

def Plain (segs : List Text) : Prop := ∀ seg ∈ segs, Segment seg

theorem node_inj {l l' : List Text} (hl : Plain l) (hl' : Plain l') : root.node l = root.node l' ↔ l = l' :=
  foldl_child_inj (fun seg mem => (hl seg mem).noSlash) fun seg mem => (hl' seg mem).noSlash

theorem prefix_of_below {l l' : List Text} (hl : Plain l) (hl' : Plain l')
    (below : Below (root.node l) (root.node l')) : l <+: l' :=
  below_foldl_child (fun seg mem => (hl seg mem).noSlash) (fun seg mem => (hl' seg mem).noSlash) below

theorem child_node (root : RootPath) (l : List Text) (k : Text) :
    child (root.node l) k = root.node (l ++ [k]) := by
  simp [RootPath.node]

theorem below_node (root : RootPath) (l l' : List Text) : Below (root.node l) (root.node (l ++ l')) := by
  induction l' using List.reverseRecOn with
  | nil =>
    rw [List.append_nil]
    exact .refl _
  | append_singleton l' k ih =>
    rw [← List.append_assoc, ← child_node]
    exact ih.child k

theorem valid_node {l : List Text} {k : Text} (hl : Plain (l ++ [k])) :
    masterCheckValidPath (root.node (l ++ [k])) = true := by
  simp only [Plain, List.forall_mem_append, List.forall_mem_singleton] at hl
  rw [← child_node]
  exact valid_child_of_segment (valid_foldl_child hl.1 root.valid) hl.2

theorem segment_toText (x : Int) : Segment (toText x) := ⟨toText_ne_nil x, slash_notMem_toText x⟩

end Prpc.MasterClient
