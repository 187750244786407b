import Prpc.MasterClient.Initialize

/-!
`MasterClient::barrier`, cut at every request to the Master. The members of a barrier are connected
clients with one thread each, and all of them pass the number of members. What the state records
besides the Master and the program counters is history: it does not influence any step.
-/

namespace Prpc.MasterClient
open Lib Master

structure Barrier where
  root : RootPath
  name : Text
  members : Finset ClientId

def Barrier.number (b : Barrier) : Nat := b.members.card
def Barrier.basePath (b : Barrier) : Text := child pathBarrier b.name
def Barrier.nodePath (b : Barrier) : Text := child b.basePath "node".toList
def Barrier.readyPath (b : Barrier) : Text := child b.basePath "ready".toList

inductive BarrierPc
  | idle
  | watchReady
  | waitNotReady
  | addBase
  | addNode
  | genNode
  | readNodes (gen : Text)
  | watchNodes (gen : Text)
  | addReady (gen : Text)
  | waitAlone (gen : Text)
  | delLast (gen : Text)
  | delReady
  | waitReady (gen : Text)
  | delNode (gen : Text)
  | failed
  deriving DecidableEq

structure BarrierState where
  master : State
  pc : ClientId → BarrierPc
  /-- Calls in which the client has generated its node, and calls that have returned. -/
  generated : ClientId → Nat
  returned : ClientId → Nat
  /-- The node of a client's call, and the clients that took the leader branch in a round. -/
  node : ClientId → Nat → Option Text
  leaders : Nat → List ClientId

def BarrierState.setPc (s : BarrierState) (c : ClientId) (pc : BarrierPc) : BarrierState :=
  { s with pc := Function.update s.pc c pc }

def BarrierState.generate (s : BarrierState) (c : ClientId) (gen : Text) : BarrierState :=
  { s.setPc c (.readNodes gen) with
    generated := Function.update s.generated c (s.generated c + 1)
    node := Function.update s.node c (Function.update (s.node c) (s.generated c) (some gen)) }

def BarrierState.lead (s : BarrierState) (c : ClientId) (gen : Text) : BarrierState :=
  let round := s.generated c - 1
  { s.setPc c (.watchNodes gen) with
    leaders := Function.update s.leaders round (c :: s.leaders round) }

def BarrierState.finish (s : BarrierState) (c : ClientId) : BarrierState :=
  { s.setPc c .idle with returned := Function.update s.returned c (s.returned c + 1) }

def BarrierState.ask {α : Type} (s : BarrierState) (c : ClientId) (answer : State × Option α)
    (next : BarrierState → α → BarrierState) : BarrierState :=
  match answer with
  | (m, none) => { s with master := m }.setPc c .failed
  | (m, some a) => next { s with master := m } a

def barrierAdvance (b : Barrier) (s : BarrierState) (c : ClientId) : Option BarrierState :=
  match s.pc c with
  | .idle => none
  | .watchReady =>
    some <| s.ask c (treeWatch b.root s.master c b.readyPath) fun s _ => s.setPc c .waitNotReady
  | .waitNotReady =>
    some <| s.ask c (treeNodeGet b.root s.master c b.readyPath) fun s value =>
      if value = none then s.setPc c .addBase else s
  | .addBase =>
    some <| s.ask c (treeNodeAdd b.root s.master c b.basePath [] false) fun s _ =>
      s.setPc c .addNode
  | .addNode =>
    some <| s.ask c (treeNodeAdd b.root s.master c b.nodePath [] false) fun s _ =>
      s.setPc c .genNode
  | .genNode =>
    some <| s.ask c (treeNodeGen b.root s.master c b.nodePath [] true) fun s gen =>
      if gen = [] then s.setPc c .failed else s.generate c gen
  | .readNodes gen =>
    some <| s.ask c (treeNodeSub b.root s.master c b.nodePath) fun s children =>
      match children with
      | none => s.setPc c .failed
      | some children =>
        if children.length = b.number ∧ children.getLast? = some gen then s.lead c gen
        else s.setPc c (.waitReady gen)
  | .watchNodes gen =>
    some <| s.ask c (treeWatch b.root s.master c b.nodePath) fun s _ => s.setPc c (.addReady gen)
  | .addReady gen =>
    some <| s.ask c (treeNodeAdd b.root s.master c b.readyPath [] true) fun s added =>
      if added then s.setPc c (.waitAlone gen) else s.setPc c .failed
  | .waitAlone gen =>
    some <| s.ask c (treeNodeSub b.root s.master c b.nodePath) fun s children =>
      match children with
      | none => s.setPc c .failed
      | some children => if children.length = 1 then s.setPc c (.delLast gen) else s
  | .delLast gen =>
    some <| s.ask c (treeNodeDel b.root s.master c (child b.nodePath gen)) fun s deleted =>
      if deleted then s.setPc c .delReady else s.setPc c .failed
  | .delReady =>
    some <| s.ask c (treeNodeDel b.root s.master c b.readyPath) fun s deleted =>
      if deleted then s.finish c else s.setPc c .failed
  | .waitReady gen =>
    some <| s.ask c (treeNodeGet b.root s.master c b.readyPath) fun s value =>
      if value = none then s else s.setPc c (.delNode gen)
  | .delNode gen =>
    some <| s.ask c (treeNodeDel b.root s.master c (child b.nodePath gen)) fun s deleted =>
      if deleted then s.finish c else s.setPc c .failed
  | .failed => none

/-- Members call the barrier and run; requests outside the directory of barriers are `other`. In
`limited` runs no generation passes the `2 ^ 31` that the counter can tell apart. -/
inductive BarrierStep (b : Barrier) (limited : Prop) : BarrierState → BarrierState → Prop
  | call {s : BarrierState} {c : ClientId} (member : c ∈ b.members) (idle : s.pc c = .idle) :
      BarrierStep b limited s (s.setPc c .watchReady)
  | run {s s' : BarrierState} {c : ClientId} (member : c ∈ b.members)
      (room : limited → s.pc c = .genNode → 0 ≤ s.master.gen (b.root.join b.nodePath))
      (advance : barrierAdvance b s c = some s') : BarrierStep b limited s s'
  | other {s : BarrierState} (c : ClientId) {req : Request} {path : Text} {out : Outcome}
      (target : req.target = some path) (outside : ¬ Below (b.root.join pathBarrier) path)
      (handled : handleOp s.master c [] req = some out) :
      BarrierStep b limited s { s with master := out.state }

def BarrierState.start (m : State) : BarrierState :=
  ⟨m, fun _ => .idle, fun _ => 0, fun _ => 0, fun _ _ => none, fun _ => []⟩

structure BarrierInit (b : Barrier) (s : BarrierState) : Prop where
  tree : Tree s.master
  dir : EmptyDir s.master (b.root.join pathBarrier)
  start : s = .start s.master

abbrev BarrierReachable (b : Barrier) (limited : Prop) : BarrierState → Prop :=
  Reachable (BarrierInit b) (BarrierStep b limited)

def barrierApply (b : Barrier) (s : BarrierState) (c : ClientId) : Option BarrierState :=
  match s.pc c with
  | .idle => some (s.setPc c .watchReady)
  | .genNode => if 0 ≤ s.master.gen (b.root.join b.nodePath) then barrierAdvance b s c else none
  | _ => barrierAdvance b s c

theorem barrierApply_step {b : Barrier} {limited : Prop} {s s' : BarrierState} {c : ClientId}
    (member : c ∈ b.members) (applied : barrierApply b s c = some s') :
    BarrierStep b limited s s' := by
  unfold barrierApply at applied
  split at applied
  · rename_i idle
    cases applied
    exact .call member idle
  · rw [Option.ite_none_right_eq_some] at applied
    exact .run member (fun _ _ => applied.1) applied.2
  · rename_i other
    exact .run member (fun _ at_ => absurd at_ other) applied

def barrierRun (b : Barrier) (schedule : List ClientId) : Option BarrierState := do
  let m ← clientInitialize b.root .empty 0
  schedule.foldlM (barrierApply b) (.start m)

theorem barrierRun_reachable {b : Barrier} {limited : Prop} {schedule : List ClientId}
    (members : ∀ c ∈ schedule, c ∈ b.members) {s : BarrierState}
    (run : barrierRun b schedule = some s) : BarrierReachable b limited s := by
  obtain ⟨m, eq, tree, dirs⟩ := clientInitialize_ok b.root 0
  have start : BarrierInit b (.start m) := ⟨tree, dirs pathBarrier (by decide), rfl⟩
  simp only [barrierRun, eq, Option.bind_eq_bind, Option.bind_some] at run
  exact Reachable.foldlM (fun c mem _ _ => barrierApply_step (members c mem)) (.initial start) run

end Prpc.MasterClient
