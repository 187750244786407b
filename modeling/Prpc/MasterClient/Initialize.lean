import Prpc.MasterClient.TicketQueue

/-!
`MasterClient::initialize` on a Master nobody has used: it makes the root and the directories that
the protocols work in, and leaves every one of them empty.
-/

namespace Prpc.MasterClient
open Lib Master

def pathNode : Text := "_node_".toList
def pathTaskState : Text := "_task_state_".toList
def pathContext : Text := "_context_".toList
def pathModel : Text := "_model_".toList

def directories : List Text :=
  [pathNode, pathTaskState, pathRpc, pathGenerateId, pathLock, pathBarrier, pathContext, pathModel]

def addRoot (m : State) (c : ClientId) (cur : Text) : List Text → Option State
  | [] => some m
  | seg :: segs =>
    match nodeAdd m c (child cur seg) [] false with
    | (_, none) => none
    | (m, some _) => addRoot m c (child cur seg) segs

def addDirectories (root : RootPath) (m : State) (c : ClientId) : List Text → Option State
  | [] => some m
  | dir :: dirs =>
    match treeNodeAdd root m c dir [] false with
    | (_, none) => none
    | (m, some _) => addDirectories root m c dirs

def clientInitialize (root : RootPath) (m : State) (c : ClientId) : Option State := do
  let m ← addRoot m c [] root.segs
  addDirectories root m c directories

def EmptyDir (m : State) (p : Text) : Prop := ∃ d, m.path.lookup p = some d ∧ d.owner = none ∧ d.sub = ∅

variable {root : RootPath} {m : State} {c : ClientId}

theorem addRoot_ok (c : ClientId) (tree : Tree m) {cur : Text} (node : EmptyDir m cur) {segs : List Text}
    (segments : ∀ seg ∈ segs, Segment seg) :
    ∃ m', addRoot m c cur segs = some m' ∧ Tree m' ∧ EmptyDir m' (segs.foldl child cur) := by
  induction segs generalizing m cur with
  | nil => exact ⟨m, rfl, tree, node⟩
  | cons seg segs ih =>
    obtain ⟨d, hd, persistent, empty⟩ := node
    have segment := segments seg (List.mem_cons_self ..)
    have addable := addable_child tree segment hd persistent (by simp [empty])
    have added : EmptyDir (addedNode m c (child cur seg) [] false d) (child cur seg) :=
      ⟨⟨none, [], ∅⟩, by
        rw [lookup_addedNode_child _ _ _ _ _ _ segment.noSlash, if_neg (child_ne_self _ _), if_pos rfl]
        rfl, rfl, rfl⟩
    obtain ⟨m', eq, tree', node'⟩ := ih (tree.added c [] false addable) added
      fun s mem => segments s (List.mem_cons_of_mem _ mem)
    refine ⟨m', ?_, tree', node'⟩
    simp [addRoot, nodeAdd_ok tree addable, eq]

theorem addDirectories_ok (root : RootPath) (c : ClientId) (dirs : List Text) (tree : Tree m)
    {d : MasterNode} (node : m.path.lookup root.dir = some d) (persistent : d.owner = none) (nodup : dirs.Nodup)
    (segments : ∀ dir ∈ dirs, Segment dir) (fresh : ∀ dir ∈ dirs, dir ∉ d.sub) :
    ∃ m', addDirectories root m c dirs = some m' ∧ Tree m' ∧ (∀ dir ∈ dirs, EmptyDir m' (root.join dir)) ∧
      ∀ p, p ≠ root.dir → (∀ dir ∈ dirs, p ≠ root.join dir) → m'.path.lookup p = m.path.lookup p := by
  induction dirs generalizing m d with
  | nil => exact ⟨m, rfl, tree, by simp, fun _ _ _ => rfl⟩
  | cons dir dirs ih =>
    rw [List.nodup_cons] at nodup
    have segment := segments dir (List.mem_cons_self ..)
    have addable := addable_child tree segment node persistent (fresh dir (List.mem_cons_self ..))
    have lookup := lookup_addedNode_child m c root.dir [] false d segment.noSlash
    obtain ⟨m', eq, tree', made, same⟩ := ih (tree.added c [] false addable)
      ((lookup root.dir).trans (if_pos rfl)) persistent nodup.2
      (fun s mem => segments s (List.mem_cons_of_mem _ mem)) (fun s mem => by
        rw [Finset.mem_insert, not_or]
        exact ⟨fun eq => nodup.1 (eq ▸ mem), fresh s (List.mem_cons_of_mem _ mem)⟩)
    refine ⟨m', ?_, tree', fun s mem => ?_, fun p ne other => ?_⟩
    · simp only [addDirectories, treeNodeAdd, RootPath.join]
      simp [nodeAdd_ok tree addable, eq]
    · rcases List.mem_cons.1 mem with rfl | mem
      · have other : ∀ dir ∈ dirs, root.join s ≠ root.join dir := by
          intro dir mem eq
          rw [RootPath.join, RootPath.join, child_right_inj] at eq
          exact nodup.1 (eq ▸ mem)
        refine ⟨⟨none, [], ∅⟩, ?_, rfl, rfl⟩
        rw [same (root.join s) (child_ne_self _ _) other]
        exact (lookup _).trans ((if_neg (child_ne_self _ _)).trans (if_pos rfl))
      · exact made s mem
    · rw [same p ne fun s mem => other s (List.mem_cons_of_mem _ mem), lookup, if_neg ne, if_neg]
      exact other dir (List.mem_cons_self ..)

variable {m' : State}

theorem nodeAdd_touchRoot {path value : Text} {ephemeral : Bool} {a : Bool}
    (added : nodeAdd (touchRoot m) c path value ephemeral = (m', some a)) :
    nodeAdd m c path value ephemeral = (m', some a) := by
  simp only [nodeAdd, call, handleOp, touchRoot_of_mem (root_mem_touchRoot m)] at added ⊢
  cases valid : masterCheckValidPath path with
  | false => simp [valid] at added
  | true =>
    cases out : masterAdd (touchRoot m) c path value ephemeral with
    | none => simp [valid, out] at added
    | some => simpa [valid, out] using added

theorem addRoot_touchRoot {cur seg : Text} {segs : List Text}
    (added : addRoot (touchRoot m) c cur (seg :: segs) = some m') :
    addRoot m c cur (seg :: segs) = some m' := by
  unfold addRoot at added ⊢
  split at added
  · cases added
  · rename_i eq
    rw [nodeAdd_touchRoot eq]
    exact added

theorem addDirectories_touchRoot {dir : Text} {dirs : List Text}
    (added : addDirectories root (touchRoot m) c (dir :: dirs) = some m') :
    addDirectories root m c (dir :: dirs) = some m' := by
  unfold addDirectories at added ⊢
  split at added
  · cases added
  · rename_i eq
    rw [treeNodeAdd, nodeAdd_touchRoot eq]
    exact added

theorem clientInitialize_touchRoot
    (made : clientInitialize root (touchRoot m) c = some m') :
    clientInitialize root m c = some m' := by
  unfold clientInitialize at made ⊢
  cases h : root.segs with
  | nil =>
    rw [h] at made
    exact addDirectories_touchRoot made
  | cons seg segs =>
    rw [h] at made
    obtain ⟨_, added, rest⟩ := Option.bind_eq_some_iff.1 made
    exact Option.bind_eq_some_iff.2 ⟨_, addRoot_touchRoot added, rest⟩

theorem clientInitialize_ok (root : RootPath) (c : ClientId) :
    ∃ m, clientInitialize root .empty c = some m ∧ Tree m ∧
      ∀ dir ∈ directories, EmptyDir m (root.join dir) := by
  have tree : Tree (touchRoot .empty) := ⟨TreeInv.empty.touched, root_mem_touchRoot _⟩
  have node : EmptyDir (touchRoot .empty) [] := by
    refine ⟨{}, ?_, rfl, rfl⟩
    simp [lookup_touchRoot, State.empty, Finmap.notMem_empty]
  obtain ⟨m, eq, tree', d, hd, persistent, empty⟩ := addRoot_ok c tree node root.segments
  obtain ⟨m', eq', tree'', made, -⟩ := addDirectories_ok root c directories tree' hd persistent
    (by decide) (by decide) (by simp [empty])
  refine ⟨m', clientInitialize_touchRoot ?_, tree'', made⟩
  simp [clientInitialize, eq, eq']

end Prpc.MasterClient
