import Prpc.MasterClient.Calls

namespace Prpc.MasterClient
open Lib Master

/-- The Master afterwards and the number of requests made. The next round of the loop is a call of
its own, since the first thing a round does is to read the children again. -/
def treeClearPath (root : RootPath) (c : ClientId) : Nat → State → Text → Option (State × Nat)
  | 0, _, _ => none
  | fuel + 1, m, path =>
    match treeNodeSub root m c path with
    | (_, none) => none
    | (m, some none) => some (m, 1)
    | (m, some (some children)) => do
      let (m, cleared) ← children.foldlM (fun done name => do
        let (m, requests) ← treeClearPath root c fuel done.1 (child path name)
        return (m, done.2 + requests)) (m, 0)
      match treeNodeDel root m c path with
      | (_, none) => none
      | (m, some _) => do
        let (m, requests) ← treeClearPath root c fuel m path
        return (m, 1 + cleared + 1 + requests)

def nodes (m : State) : Finset Text := m.path.keys

theorem mem_nodes {m : State} {p : Text} : p ∈ nodes m ↔ p ∈ m.path := Finmap.mem_keys

structure Cleared (m m' : State) (p : Text) : Prop where
  tree : Tree m'
  gone : ∀ q, Below p q → q ∉ m'.path
  kept : ∀ q, ¬ Below p q → q ≠ parentOf p → m'.path.lookup q = m.path.lookup q
  parent : m'.path.lookup (parentOf p) =
    (m.path.lookup (parentOf p)).map fun n => { n with sub := n.sub.erase (keyOf p) }
  gen : ∀ q, ¬ Below p q → m'.gen q = m.gen q
  watchers : m'.watchers = m.watchers

variable {root : RootPath} {m m' : State} {c : ClientId} {path p : Text}

theorem absent_below (tree : Tree m) (absent : p ∉ m.path) {q : Text} (below : Below p q) : q ∉ m.path := by
  intro mem
  rcases below with rfl | ⟨r, rfl⟩
  · exact absent mem
  · induction hr : r.length using Nat.strong_induction_on generalizing r with
    | _ len ih =>
      obtain ⟨n, node⟩ := mem_path_iff.1 mem
      obtain ⟨pit, parent, -⟩ := tree.parent _ n node (by simp [child])
      have there : parentOf (child p r) ∈ m.path := mem_path_iff.2 ⟨pit, parent⟩
      by_cases slash : '/' ∈ r
      · -- The parent is still below `p`.
        have split := child_parentOf_keyOf slash
        have shorter : (parentOf r).length < r.length := by
          have len := congrArg List.length split
          simp only [child, List.length_append, List.length_cons] at len
          omega
        rw [← split, ← child_assoc, parentOf_child (slash_notMem_keyOf r)] at there
        exact ih _ (hr ▸ shorter) (parentOf r) there rfl
      · rw [parentOf_child slash] at there
        exact absent there

theorem Cleared.nodes_subset (cleared : Cleared m m' p) : nodes m' ⊆ nodes m := by
  intro q mem
  rw [mem_nodes] at mem ⊢
  have outside : ¬ Below p q := fun below => cleared.gone q below mem
  rw [mem_path_iff] at mem ⊢
  obtain ⟨n, node⟩ := mem
  by_cases eq : q = parentOf p
  · rw [eq, cleared.parent] at node
    obtain ⟨pit, parent, -⟩ := Option.map_eq_some_iff.1 node
    exact ⟨pit, eq ▸ parent⟩
  · exact ⟨n, (cleared.kept q outside eq).symm.trans node⟩

theorem Cleared.of_absent (tree : Tree m) (valid : masterCheckValidPath p = true) (absent : p ∉ m.path) :
    Cleared m m p where
  tree := tree
  gone q below := absent_below tree absent below
  kept q _ _ := rfl
  parent := by
    cases parent : m.path.lookup (parentOf p) with
    | none => rfl
    | some pit =>
      have notMem := keyOf_notMem_sub tree.toTreeInv parent (slash_mem_of_valid valid) absent
      simp [Finset.erase_eq_of_notMem notMem]
  gen q _ := rfl
  watchers := rfl

section
variable (valid : masterCheckValidPath p = true)
include valid

theorem lookup_deletedNode (pit : MasterNode) (q : Text) : (deletedNode m p pit).path.lookup q =
      if q = parentOf p then some { pit with sub := pit.sub.erase (keyOf p) }
      else if q = p then none else m.path.lookup q := by
  show (removeNode m (parentOf p) (keyOf p) pit).path.lookup q = _
  rw [lookup_removeNode, child_of_valid valid]

theorem parentOf_not_below : ¬ Below p (parentOf p) := by
  have len := congrArg List.length (child_of_valid valid)
  simp only [child, List.length_append, List.length_cons] at len
  rintro (eq | ⟨r, eq⟩)
  · rw [eq] at len
    omega
  · have longer := congrArg List.length eq
    simp only [child, List.length_append, List.length_cons] at longer
    omega

theorem nodes_deletedNode {pit : MasterNode}
    (parent : m.path.lookup (parentOf p) = some pit) :
    nodes (deletedNode m p pit) = (nodes m).erase p := by
  ext q
  rw [Finset.mem_erase, mem_nodes, mem_nodes, mem_path_iff, mem_path_iff, lookup_deletedNode valid]
  by_cases above : q = parentOf p
  · have ne : parentOf p ≠ p := fun eq => parentOf_not_below valid (.inl eq)
    subst above
    simp [ne, parent]
  · by_cases eq : q = p
    · subst eq
      simp [above]
    · simp [above, eq]

end

structure Clears (root : RootPath) (c : ClientId) (d : Nat) (m : State) (path : Text) (m' : State)
    (requests : Nat) : Prop extends Cleared m m' (root.join path) where
  runs : ∀ fuel, d < fuel → treeClearPath root c fuel m path = some (m', requests)
  count : requests + 3 * (nodes m').card = 3 * (nodes m).card + if root.join path ∈ m.path then 0 else 1

def Shallow (m : State) (p : Text) (d : Nat) : Prop := ∀ q ∈ nodes m, q.length < p.length + d

theorem Clears.of_absent (d : Nat) (tree : Tree m) (valid : masterCheckValidPath (root.join path) = true)
    (absent : root.join path ∉ m.path) : Clears root c d m path m 1 where
  toCleared := .of_absent tree valid absent
  runs fuel enough := by
    obtain ⟨fuel, rfl⟩ := Nat.exists_eq_succ_of_ne_zero (Nat.ne_of_gt (Nat.zero_lt_of_lt enough))
    rw [treeClearPath, treeNodeSub_eq tree valid, Finmap.lookup_eq_none.2 absent]
    rfl
  count := by
    rw [if_neg absent]
    omega

structure ClearedChildren (m m' : State) (p : Text) (n : MasterNode) (names : List Text) : Prop where
  tree : Tree m'
  node : m'.path.lookup p = some { n with sub := n.sub \ names.toFinset }
  kept : ∀ q, ¬ Below p q → m'.path.lookup q = m.path.lookup q
  subset : nodes m' ⊆ nodes m
  gen : ∀ q, ¬ Below p q → m'.gen q = m.gen q
  watchers : m'.watchers = m.watchers

def clearChild (root : RootPath) (c : ClientId) (fuel : Nat) (path : Text) (done : State × Nat)
    (name : Text) : Option (State × Nat) := do
  let (m, requests) ← treeClearPath root c fuel done.1 (child path name)
  return (m, done.2 + requests)

theorem treeClearPath_succ (root : RootPath) (c : ClientId) (fuel : Nat) (m : State) (path : Text) :
    treeClearPath root c (fuel + 1) m path = match treeNodeSub root m c path with
      | (_, none) => none
      | (m, some none) => some (m, 1)
      | (m, some (some children)) => do
        let (m, cleared) ← children.foldlM (clearChild root c fuel path) (m, 0)
        match treeNodeDel root m c path with
        | (_, none) => none
        | (m, some _) => do
          let (m, requests) ← treeClearPath root c fuel m path
          return (m, 1 + cleared + 1 + requests) := rfl

theorem clearChildren (d : Nat) {n : MasterNode} {names : List Text} (nodup : names.Nodup)
    (each : ∀ (m : State) (name : Text), Tree m → Shallow m (root.join path) (d + 1) → Segment name →
      child (root.join path) name ∈ m.path →
      ∃ m' requests, Clears root c d m (child path name) m' requests)
    (tree : Tree m) (shallow : Shallow m (root.join path) (d + 1))
    (node : m.path.lookup (root.join path) = some n) (subset : ∀ name ∈ names, name ∈ n.sub)
    (before : Nat) :
    ∃ m' requests, ClearedChildren m m' (root.join path) n names ∧ (∀ fuel, d < fuel →
        names.foldlM (clearChild root c fuel path) (m, before) = some (m', before + requests)) ∧
      requests + 3 * (nodes m').card = 3 * (nodes m).card := by
  induction names generalizing m n before with
  | nil =>
    refine ⟨m, 0, ⟨tree, by simpa using node, fun _ _ => rfl, Finset.Subset.refl _, fun _ _ => rfl, rfl⟩,
      fun _ _ => rfl, by omega⟩
  | cons name names ih =>
    obtain ⟨notMem, nodup⟩ := List.nodup_cons.1 nodup
    obtain ⟨slash, there⟩ := tree.children _ n node name (subset name (List.mem_cons_self ..))
    have segment : Segment name := by
      have valid := (tree.valid _ there).resolve_left (by simp [child])
      exact ⟨((valid_child_iff slash).1 valid).2, slash⟩
    obtain ⟨m₁, k₁, clears⟩ := each m name tree shallow segment there
    have count := clears.count
    have cleared := clears.toCleared
    rw [join_child] at count cleared
    rw [if_pos there] at count
    have parent := cleared.parent
    rw [parentOf_child slash, keyOf_child slash, node] at parent
    have inside : ∀ q, ¬ Below (root.join path) q → ¬ Below (child (root.join path) name) q :=
      fun q outside below => outside below.of_child
    obtain ⟨m₂, k₂, rest, run, count₂⟩ := ih nodup cleared.tree
      (fun q mem => shallow q (cleared.nodes_subset mem)) parent
      (fun other mem => Finset.mem_erase.2
        ⟨fun eq => notMem (eq ▸ mem), subset other (List.mem_cons_of_mem _ mem)⟩) (before + k₁)
    refine ⟨m₂, k₁ + k₂, ⟨rest.tree, ?_, fun q outside => ?_, rest.subset.trans cleared.nodes_subset,
      fun q outside => (rest.gen q outside).trans (cleared.gen q (inside q outside)),
      rest.watchers.trans cleared.watchers⟩, fun fuel enough => ?_, by omega⟩
    · rw [rest.node, List.toFinset_cons, Finset.sdiff_insert, Finset.erase_sdiff_comm]
    · refine (rest.kept q outside).trans (cleared.kept q (inside q outside) ?_)
      rw [parentOf_child slash]
      rintro rfl
      exact outside (.refl _)
    · rw [List.foldlM_cons, clearChild, clears.runs fuel enough]
      show List.foldlM _ (m₁, before + k₁) names = _
      rw [run fuel enough, Nat.add_assoc]

theorem ClearedChildren.delete {n pit : MasterNode} {m₁ : State}
    (valid : masterCheckValidPath p = true)
    (children : ClearedChildren m m₁ p n n.sub.sort) (parent : m₁.path.lookup (parentOf p) = some pit) :
    Cleared m (deletedNode m₁ p pit) p := by
  have childless : n.sub \ n.sub.sort.toFinset = ∅ := by simp
  have deletable : Deletable m₁ p { n with sub := n.sub \ n.sub.sort.toFinset } :=
    ⟨valid, children.node, childless⟩
  have above := parentOf_not_below valid
  have tree : Tree (deletedNode m₁ p pit) :=
    .of_lookup (children.tree.toTreeInv.deleted deletable parent)
      ((lookup_deletedNode valid pit (parentOf p)).trans (if_pos rfl))
  have absent : p ∉ (deletedNode m₁ p pit).path := by
    rw [← mem_nodes, nodes_deletedNode valid parent]
    exact Finset.notMem_erase _ _
  refine ⟨tree, fun q below => absent_below tree absent below, fun q outside ne => ?_, ?_, fun q outside => ?_,
    children.watchers⟩
  · have other : q ≠ p := fun eq => outside (.inl eq)
    rw [lookup_deletedNode valid, if_neg ne, if_neg other, children.kept q outside]
  · rw [lookup_deletedNode valid, if_pos rfl, ← children.kept _ above, parent]
    rfl
  · have other : q ≠ p := fun eq => outside (.inl eq)
    rw [gen_deletedNode, if_neg other, children.gen q outside]

theorem exists_clears (c : ClientId) {d : Nat} (tree : Tree m)
    (valid : masterCheckValidPath (root.join path) = true) (shallow : Shallow m (root.join path) d) :
    ∃ m' requests, Clears root c d m path m' requests := by
  -- Each level of recursion asks for a longer path, so what bounds the lengths bounds the depth.
  induction d generalizing m path with
  | zero =>
    have absent : root.join path ∉ m.path := fun mem => absurd (shallow _ (mem_nodes.2 mem)) (by omega)
    exact ⟨m, 1, .of_absent 0 tree valid absent⟩
  | succ d ih =>
    cases node : m.path.lookup (root.join path) with
    | none => exact ⟨m, 1, .of_absent _ tree valid (Finmap.lookup_eq_none.1 node)⟩
    | some n =>
      have there : root.join path ∈ m.path := mem_path_iff.2 ⟨n, node⟩
      have nodup : n.sub.sort.Nodup := n.sub.sort_nodup _
      have listed : ∀ name ∈ n.sub.sort, name ∈ n.sub := fun name mem => (Finset.mem_sort _).1 mem
      obtain ⟨m₁, k, children, run, count⟩ := clearChildren (c := c) d nodup
        (fun m name tree shallow segment _ => by
          refine ih tree ?_ fun q mem => ?_
          · rw [join_child]
            exact valid_child_of_segment (.inr valid) segment
          · have short := shallow q mem
            rw [join_child]
            simp only [child, List.length_append, List.length_cons]
            omega)
        tree shallow node listed 0
      have deletable : Deletable m₁ (root.join path) { n with sub := n.sub \ n.sub.sort.toFinset } :=
        ⟨valid, children.node, by simp⟩
      obtain ⟨pit, parent, -, deleted⟩ := treeNodeDel_ok (c := c) children.tree deletable
      have cleared := children.delete valid parent
      have absent := cleared.gone _ (.refl _)
      refine ⟨_, 1 + k + 1 + 1, cleared, fun fuel enough => ?_, ?_⟩
      · obtain ⟨fuel, rfl⟩ := Nat.exists_eq_succ_of_ne_zero (Nat.ne_of_gt (Nat.zero_lt_of_lt enough))
        have again := (Clears.of_absent (c := c) d cleared.tree valid absent).runs fuel (by omega)
        rw [treeClearPath_succ, treeNodeSub_eq tree valid, node]
        show (List.foldlM _ (m, 0) n.sub.sort >>= _) = _
        rw [run fuel (by omega)]
        show (match treeNodeDel root m₁ c path with | (_, none) => none | (_, some _) => _) = _
        rw [deleted]
        show (treeClearPath root c fuel _ path >>= _) = _
        rw [again, Nat.zero_add]
        rfl
      · have mem : root.join path ∈ nodes m₁ := mem_nodes.2 (mem_path_iff.2 ⟨_, children.node⟩)
        have card := Finset.card_erase_add_one mem
        rw [if_pos there, nodes_deletedNode valid parent]
        omega

/-- Every tree is cleared of every path: when nobody else asks the Master for anything, the call
returns, what is at the path and below it is gone, the rest is as it was, and the number of requests is
at most three for each node removed and one more. -/
theorem tree_clear_path_removes_subtree (root : RootPath) (c : ClientId) (m : State) (path : Text)
    (tree : Tree m) (valid : masterCheckValidPath (root.join path) = true) :
    ∃ enough m' requests, (∀ fuel, enough ≤ fuel → treeClearPath root c fuel m path = some (m', requests)) ∧
      Cleared m m' (root.join path) ∧ requests ≤ 3 * (nodes m \ nodes m').card + 1 := by
  have shallow : Shallow m (root.join path) ((nodes m).sup List.length + 1) := by
    intro q mem
    have short : q.length ≤ (nodes m).sup List.length := Finset.le_sup (f := List.length) mem
    omega
  obtain ⟨m', requests, clears⟩ := exists_clears c tree valid shallow
  refine ⟨_, m', requests, fun fuel enough => clears.runs fuel enough, clears.toCleared, ?_⟩
  have removed := Finset.card_sdiff_add_card_eq_card clears.nodes_subset
  have count := clears.count
  split at count <;> omega

def oneDirectory : State :=
  addedNode (addedNode (touchRoot .empty) 0 "/root".toList [] false {}) 0 "/root/a".toList [] false
    ⟨none, [], ∅⟩

theorem tree_oneDirectory : Tree oneDirectory := by
  have first : Addable (touchRoot .empty) "/root".toList {} := ⟨by decide, by decide +kernel, rfl, by decide +kernel⟩
  have tree := TreeInv.empty.touched.added 0 [] false first
  have second : Addable (addedNode (touchRoot .empty) 0 "/root".toList [] false {}) "/root/a".toList
      ⟨none, [], ∅⟩ := ⟨by decide, by decide +kernel, rfl, by decide +kernel⟩
  exact ⟨tree.added 0 [] false second, by decide +kernel⟩

example : (treeClearPath ⟨[], by simp⟩ 0 3 oneDirectory "root".toList).map (·.2) = some 6 := by decide +kernel

theorem tree_clear_path_removes_subtree_root : ∃ enough m' requests,
    (∀ fuel, enough ≤ fuel → treeClearPath ⟨[], by simp⟩ 0 fuel oneDirectory "root".toList = some (m', requests)) ∧
      Cleared oneDirectory m' "/root".toList ∧ requests ≤ 3 * (nodes oneDirectory \ nodes m').card + 1 :=
  tree_clear_path_removes_subtree ⟨[], by simp⟩ 0 oneDirectory "root".toList tree_oneDirectory (by decide)

end Prpc.MasterClient
