import Prpc.Master.Frame

/-!
The `tree_node_*` functions of `MasterClient.cpp`. Each is one request to the Master, made on a
path under the client's root, with a check of the path before it and of the status after it. The
result is the Master after the request and what the client got, `none` for a failed check.
-/

namespace Prpc.MasterClient
open Lib Master

structure Segment (name : Text) : Prop where
  ne_nil : name ≠ []
  noSlash : '/' ∉ name

instance (name : Text) : Decidable (Segment name) :=
  decidable_of_iff (name ≠ [] ∧ '/' ∉ name) ⟨fun h => ⟨h.1, h.2⟩, fun h => ⟨h.1, h.2⟩⟩

/-- `_root_path` by its segments. A root that is not of this form fails every check of a path. -/
structure RootPath where
  segs : List Text
  segments : ∀ seg ∈ segs, Segment seg

def RootPath.dir (root : RootPath) : Text := root.segs.foldl child []

def RootPath.join (root : RootPath) (path : Text) : Text := child root.dir path

def RootPath.default : RootPath := ⟨["root".toList], by decide⟩

def pathGenerateId : Text := "_id_gen_".toList
def pathLock : Text := "_lock_".toList
def pathBarrier : Text := "_barrier_".toList
def pathRpc : Text := "_rpc_".toList

/-- The loop of the source repeats a request that was answered `DISCONNECTED`, which the Master
never answers. -/
def call (m : State) (c : ClientId) (path : Text) (req : Request) : State × Option Response :=
  if masterCheckValidPath path then
    match handleOp m c [] req with
    | none => (m, none)
    | some out => (out.state, if out.resp.code = .ERROR then none else some out.resp)
  else
    (m, none)

def treeNodeGen (root : RootPath) (m : State) (c : ClientId) (path value : Text)
    (ephemeral : Bool) : State × Option Text :=
  (call m c (root.join path) (.gen (root.join path) value ephemeral)).map id <| Option.map fun
    | .key gen => gen
    | _ => []

def nodeAdd (m : State) (c : ClientId) (path value : Text) (ephemeral : Bool) : State × Option Bool :=
  (call m c path (.add path value ephemeral)).map id <| Option.map fun resp => resp.code = .OK

def treeNodeAdd (root : RootPath) (m : State) (c : ClientId) (path value : Text)
    (ephemeral : Bool) : State × Option Bool :=
  nodeAdd m c (root.join path) value ephemeral

def treeNodeDel (root : RootPath) (m : State) (c : ClientId) (path : Text) : State × Option Bool :=
  (call m c (root.join path) (.del (root.join path))).map id <| Option.map fun resp =>
    resp.code = .OK

def treeNodeGet (root : RootPath) (m : State) (c : ClientId) (path : Text) : State × Option (Option Text) :=
  (call m c (root.join path) (.get (root.join path))).map id <| Option.map fun
    | .value value => some value
    | _ => none

def treeNodeSub (root : RootPath) (m : State) (c : ClientId) (path : Text) :
    State × Option (Option (List Text)) :=
  (call m c (root.join path) (.sub (root.join path))).map id <| Option.map fun
    | .children children => some children
    | _ => none

/-- Only the two requests of `tree_watch`, whose answers it drops: nothing here depends on when a
callback is called. -/
def treeWatch (root : RootPath) (m : State) (c : ClientId) (path : Text) : State × Option Unit :=
  if masterCheckValidPath (root.join path) then
    match handleOp m c [] (.get (root.join path)) with
    | none => (m, none)
    | some got =>
      match handleOp got.state c [] (.sub (root.join path)) with
      | none => (got.state, none)
      | some read => (read.state, some ())
  else
    (m, none)

theorem valid_child_of_segment {p name : Text} (hp : p = [] ∨ masterCheckValidPath p = true)
    (segment : Segment name) : masterCheckValidPath (child p name) = true :=
  (valid_child_iff segment.noSlash).2 ⟨hp, segment.ne_nil⟩

theorem valid_foldl_child {segs : List Text} (segments : ∀ seg ∈ segs, Segment seg) {cur : Text}
    (valid : cur = [] ∨ masterCheckValidPath cur = true) :
    segs.foldl child cur = [] ∨ masterCheckValidPath (segs.foldl child cur) = true := by
  induction segs generalizing cur with
  | nil => exact valid
  | cons seg segs ih =>
    exact ih (fun s mem => segments s (List.mem_cons_of_mem _ mem))
      (.inr (valid_child_of_segment valid (segments seg (List.mem_cons_self ..))))

theorem RootPath.valid (root : RootPath) : root.dir = [] ∨ masterCheckValidPath root.dir = true :=
  valid_foldl_child root.segments (.inl rfl)

theorem join_child (root : RootPath) (p name : Text) : root.join (child p name) = child (root.join p) name :=
  (child_assoc root.dir p name).symm

theorem segment_pathLock : Segment pathLock := by decide
theorem segment_pathGenerateId : Segment pathGenerateId := by decide
theorem segment_pathRpc : Segment pathRpc := by decide
theorem segment_pathBarrier : Segment pathBarrier := by decide

theorem valid_join (root : RootPath) {name : Text} (segment : Segment name) :
    masterCheckValidPath (root.join name) = true :=
  valid_child_of_segment root.valid segment

theorem valid_join_child (root : RootPath) {dir name : Text} (hd : Segment dir)
    (hn : Segment name) : masterCheckValidPath (root.join (child dir name)) = true := by
  rw [join_child]
  exact valid_child_of_segment (.inr (valid_join root hd)) hn

variable {g : Nat}

theorem int32_of_lt (h : g < 2 ^ 31) : int32 g = g := int32_of_range (by omega) (by omega)

theorem nonneg_int32 (h : g ≤ 2 ^ 31) (nonneg : 0 ≤ int32 g) : g < 2 ^ 31 := by
  rcases Nat.lt_or_eq_of_le h with lt | eq
  · exact lt
  · rw [eq] at nonneg
    exact absurd nonneg (by decide)

theorem genKey_natCast (h : g < 10 ^ 10) : genKey g = '_' :: lastDigits 10 g := by
  have nonneg : ¬ (g : Int) < 0 := by omega
  rw [genKey, toText, if_neg nonneg, Int.natAbs_natCast, leftpad_toDigits (w := 9) h]

theorem genKey_length (h : g < 10 ^ 10) : (genKey g).length = 11 := by
  simp [genKey_natCast h]

theorem genKey_lt {g h : Nat} (lt : g < h) (small : h < 10 ^ 10) : genKey g < genKey h := by
  rw [genKey_natCast (lt.trans small), genKey_natCast small]
  exact List.cons_lt_cons_iff.2 (.inr ⟨rfl, lastDigits_lt lt small⟩)

theorem genKey_inj {g h : Nat} (hg : g < 10 ^ 10) (hh : h < 10 ^ 10) (eq : genKey g = genKey h) : g = h := by
  rw [genKey_natCast hg, genKey_natCast hh, List.cons_inj_right] at eq
  exact lastDigits_injective hg hh eq

theorem genKey_ne_nil (x : Int) : genKey x ≠ [] := by simp [genKey]

theorem segment_genKey (x : Int) : Segment (genKey x) := ⟨genKey_ne_nil x, slash_notMem_genKey x⟩

structure Counts (m : State) (parent : Text) (g : Nat) : Prop where
  gen : m.gen parent = int32 g
  le : g ≤ 2 ^ 31

structure Tree (m : State) : Prop extends TreeInv m where
  rooted : [] ∈ m.path

variable {root : RootPath} {m : State} {c : ClientId} {path value : Text} {ephemeral : Bool}

theorem Tree.of_lookup (inv : TreeInv m) {p : Text} {n : MasterNode}
    (node : m.path.lookup p = some n) : Tree m :=
  ⟨inv, root_mem_of_mem inv (mem_path_iff.2 ⟨n, node⟩)⟩

section
variable (tree : Tree m)
include tree

theorem Tree.of_handleOp {req : Request} (ne : req ≠ .clientFinalize)
    {out : Outcome} (handled : handleOp m c [] req = some out) : Tree out.state := by
  obtain ⟨out', handled', inv, rooted, -⟩ := handleOp_ok tree.toTreeInv [] req fun eq => absurd eq ne
  rw [handled] at handled'
  cases handled'
  exact ⟨inv, rooted⟩

variable {pit : MasterNode}

theorem nodeAdd_ok (h : Addable m path pit) : nodeAdd m c path value ephemeral =
      (addedNode m c path value ephemeral pit, some true) := by
  simp [nodeAdd, call, h.valid, handleOp, touchRoot_of_mem tree.rooted,
    masterAdd_ok tree.toTreeInv h, Response.code]

theorem treeNodeAdd_ok (h : Addable m (root.join path) pit) : treeNodeAdd root m c path value ephemeral =
      (addedNode m c (root.join path) value ephemeral pit, some true) :=
  nodeAdd_ok tree h

theorem treeNodeAdd_refused (valid : masterCheckValidPath (root.join path) = true)
    (h : ∀ pit, ¬ Addable m (root.join path) pit) :
    treeNodeAdd root m c path value ephemeral = (m, some false) := by
  obtain ⟨code, ok, err, eq⟩ := masterAdd_refused c value ephemeral h
  simp [treeNodeAdd, nodeAdd, call, valid, handleOp, touchRoot_of_mem tree.rooted, eq, Response.code, ok,
    err valid]

theorem treeNodeGen_ok (h : Generable m (root.join path) pit) (counts : m.gen (root.join path) = g) (small : g < 2 ^ 31)
    (fresh : child (root.join path) (genKey g) ∉ m.path) :
    treeNodeGen root m c path value ephemeral =
      (generatedNode m c (root.join path) value ephemeral pit, some (genKey g)) := by
  have short : (genKey (m.gen (root.join path))).length ≤ 11 := by
    rw [counts, genKey_length (by omega)]
  rw [← counts] at fresh
  simp [treeNodeGen, call, h.valid, handleOp, touchRoot_of_mem tree.rooted,
    masterGen_ok tree.toTreeInv h short fresh, Response.code, counts]

theorem treeNodeDel_ok {it : MasterNode} (h : Deletable m (root.join path) it) :
    ∃ pit, m.path.lookup (parentOf (root.join path)) = some pit ∧ pit.owner = none ∧
      treeNodeDel root m c path = (deletedNode m (root.join path) pit, some true) := by
  obtain ⟨pit, hp, persistent, eq⟩ := masterDel_ok tree.toTreeInv h
  exact ⟨pit, hp, persistent, by
    simp [treeNodeDel, call, h.valid, handleOp, touchRoot_of_mem tree.rooted, eq, Response.code]⟩

theorem treeNodeDel_refused (valid : masterCheckValidPath (root.join path) = true)
    (h : ∀ it, ¬ Deletable m (root.join path) it) :
    treeNodeDel root m c path = (m, some false) := by
  obtain ⟨code, ok, err, eq⟩ := masterDel_refused h
  simp [treeNodeDel, call, valid, handleOp, touchRoot_of_mem tree.rooted, eq, Response.code, ok, err valid]

theorem treeNodeGet_eq (valid : masterCheckValidPath (root.join path) = true) : treeNodeGet root m c path =
      (m, some ((m.path.lookup (root.join path)).map MasterNode.value)) := by
  cases h : m.path.lookup (root.join path) with
  | none =>
    simp [treeNodeGet, call, valid, handleOp, touchRoot_of_mem tree.rooted, masterGet, h, Response.code]
  | some it =>
    simp [treeNodeGet, call, valid, handleOp, touchRoot_of_mem tree.rooted, masterGet, h, Response.code]

theorem treeNodeSub_eq (valid : masterCheckValidPath (root.join path) = true) : treeNodeSub root m c path =
      (m, some ((m.path.lookup (root.join path)).map fun it => it.sub.sort)) := by
  cases h : m.path.lookup (root.join path) with
  | none =>
    simp [treeNodeSub, call, valid, handleOp, touchRoot_of_mem tree.rooted, masterSub, h, Response.code]
  | some it =>
    simp [treeNodeSub, call, valid, handleOp, touchRoot_of_mem tree.rooted, masterSub, h, Response.code]

theorem treeWatch_eq (valid : masterCheckValidPath (root.join path) = true) :
    treeWatch root m c path = (m, some ()) := by
  obtain ⟨got, hget⟩ := masterGet_state m (root.join path)
  obtain ⟨read, hsub⟩ := masterSub_state m (root.join path)
  simp [treeWatch, valid, handleOp, touchRoot_of_mem tree.rooted, hget, hsub]

end

end Prpc.MasterClient
