import Prpc.MasterClient.Lock.Model

/-!
`register_rpc_service`, `deregister_rpc_service`, `register_server`, `deregister_server` and
`generate_id` of `MasterClient.cpp`, one request to the Master a step, on top of the threads of the
lock protocol. A service is a persistent node whose value is the id of the service, and a server is
an ephemeral child of it.
-/

namespace Prpc.MasterClient
open Lib Master

def apiPath (api : Text) : Text := child pathRpc api

def servicePath (api name : Text) : Text := child (apiPath api) name

def serverPath (api name : Text) (serverId : Int) : Text := child (servicePath api name) (toText serverId)

def generatorPath (key : Text) : Text := child pathGenerateId key

def rpcKey (api name : Text) : Text := api ++ '$' :: name

def idOf (gen : Text) : Option Int := if 1 < gen.length then stoi (gen.drop 1) else none

inductive Job
  | registerRpcService
  | deregisterRpcService
  | registerServer (globalRank serverId : Int32)
  | deregisterServer (serverId : Int32)
  deriving DecidableEq

structure ServiceCall where
  job : Job
  api : Text
  name : Text
  deriving DecidableEq

def ServiceCall.key (call : ServiceCall) : Text := rpcKey call.api call.name

inductive Return
  | nothing
  | rpcId (id : Int)
  | flag (ret : Bool)
  | server (ret : Bool) (rpcId serverId : Int)
  deriving DecidableEq

/-- Where a thread is. In `acquiring` and `releasing` it is inside `acquire_lock` and
`release_lock`, where the lock protocol says. -/
inductive ServicePc
  | idle (ret : Return)
  | acquiring (call : ServiceCall)
  | addApi (call : ServiceCall)
  | getService (call : ServiceCall)
  | addGenerator (call : ServiceCall)
  | genId (call : ServiceCall)
  | addService (call : ServiceCall) (rpcId : Int)
  | delService (call : ServiceCall)
  | releasing (call : ServiceCall) (ret : Return)
  | addServerGenerator (call : ServiceCall) (globalRank : Int32) (rpcId : Int)
  | genServerId (call : ServiceCall) (globalRank : Int32) (rpcId : Int)
  | addServer (call : ServiceCall) (globalRank : Int32) (rpcId serverId : Int)
  | delServer (call : ServiceCall) (serverId : Int32)
  | failed
  deriving DecidableEq

structure Assignment where
  api : Text
  name : Text
  rpcId : Int
  deriving DecidableEq

structure Release where
  api : Text
  name : Text
  rpcId : Int
  stored : Option Text
  deriving DecidableEq

structure Registration where
  api : Text
  name : Text
  globalRank : Int32
  rpcId : Int
  serverId : Int
  deriving DecidableEq

/-- The last three fields are not in the source: they record what has happened. A registration is
`live` at a path for as long as its node is there. -/
structure ServiceState where
  lock : LockState
  pc : ThreadId → ServicePc
  assigned : List Assignment
  released : List Release
  live : Text → Option Registration

abbrev ServiceState.master (s : ServiceState) : State := s.lock.master

def ServiceState.setPc (s : ServiceState) (t : ThreadId) (pc : ServicePc) : ServiceState :=
  { s with pc := Function.update s.pc t pc }

def ServiceState.setLock (s : ServiceState) (lock : LockState) : ServiceState := { s with lock }

def ServiceState.setMaster (s : ServiceState) (m : State) : ServiceState :=
  s.setLock { s.lock with master := m }

def ServiceState.assign (s : ServiceState) (call : ServiceCall) (id : Int) : ServiceState :=
  { s with assigned := ⟨call.api, call.name, id⟩ :: s.assigned }

def ServiceState.noteRelease (root : RootPath) (s : ServiceState) (t : ThreadId)
    (call : ServiceCall) (ret : Return) : ServiceState :=
  match s.lock.pc t, ret with
  | .erase _ _, .rpcId id =>
    let stored := (s.master.path.lookup (root.join (servicePath call.api call.name))).map (·.value)
    { s with released := ⟨call.api, call.name, id, stored⟩ :: s.released }
  | _, _ => s

def ServiceState.enlist (s : ServiceState) (path : Text) (reg : Registration) : ServiceState :=
  { s with live := Function.update s.live path (some reg) }

def ServiceState.prune (s : ServiceState) : ServiceState :=
  { s with live := fun p => if p ∈ s.master.path then s.live p else none }

def ServiceState.ask {α : Type} (s : ServiceState) (t : ThreadId) (answer : State × Option α)
    (next : ServiceState → α → ServiceState) : Option ServiceState :=
  if t.client ∈ s.lock.offline then
    none
  else
    match answer with
    | (m, none) => some ((s.setMaster m).setPc t .failed)
    | (m, some a) => some (next (s.setMaster m) a)

def afterAcquire (call : ServiceCall) : ServicePc :=
  match call.job with
  | .deregisterRpcService => .delService call
  | _ => .addApi call

def afterRelease (call : ServiceCall) (ret : Return) : ServicePc :=
  match call.job, ret with
  | .registerServer globalRank serverId, .rpcId id =>
    if serverId = -1 then .addServerGenerator call globalRank id
    else .addServer call globalRank id serverId.toInt
  | _, _ => .idle ret

def afterGet (call : ServiceCall) : Option Text → ServicePc
  | none => .addGenerator call
  | some info =>
    match picoLexicalCastInt info with
    | none => .failed
    | some id => .releasing call (.rpcId id)

def serviceAdvance (root : RootPath) (s : ServiceState) (t : ThreadId) : Option ServiceState :=
  let c := t.client
  match s.pc t with
  | .idle _ => none
  | .acquiring call =>
    match s.lock.pc t with
    | .holding _ _ => some (s.setPc t (afterAcquire call))
    | _ => (lockAdvance root s.lock t).map s.setLock
  | .addApi call =>
    s.ask t (treeNodeAdd root s.master c (apiPath call.api) [] false) fun s _ =>
      s.setPc t (.getService call)
  | .getService call =>
    s.ask t (treeNodeGet root s.master c (servicePath call.api call.name)) fun s info =>
      s.setPc t (afterGet call info)
  | .addGenerator call =>
    s.ask t (treeNodeAdd root s.master c (generatorPath call.api) [] false) fun s _ =>
      s.setPc t (.genId call)
  | .genId call =>
    s.ask t (treeNodeGen root s.master c (generatorPath call.api) [] true) fun s gen =>
      match idOf gen with
      | none => s.setPc t .failed
      | some id => (s.assign call id).setPc t (.addService call id)
  | .addService call id =>
    s.ask t (treeNodeAdd root s.master c (servicePath call.api call.name) (toText id) false)
      fun s _ => s.setPc t (.releasing call (.rpcId id))
  | .delService call =>
    s.ask t (treeNodeDel root s.master c (servicePath call.api call.name)) fun s ret =>
      s.setPc t (.releasing call (.flag ret))
  | .releasing call ret =>
    match s.lock.pc t with
    | .holding name gen => some (s.setLock (s.lock.setPc t (.find name gen)))
    | .idle => some (s.setPc t (afterRelease call ret))
    | _ => (lockAdvance root s.lock t).map fun lock => (s.setLock lock).noteRelease root t call ret
  | .addServerGenerator call rank id =>
    s.ask t (treeNodeAdd root s.master c (generatorPath call.key) [] false) fun s _ =>
      s.setPc t (.genServerId call rank id)
  | .genServerId call rank id =>
    s.ask t (treeNodeGen root s.master c (generatorPath call.key) [] true) fun s gen =>
      match idOf gen with
      | none => s.setPc t .failed
      | some serverId => s.setPc t (.addServer call rank id serverId)
  | .addServer call rank id serverId =>
    let path := serverPath call.api call.name serverId
    s.ask t (treeNodeAdd root s.master c path (toText rank.toInt) true) fun s added =>
      let s := if added then s.enlist (root.join path) ⟨call.api, call.name, rank, id, serverId⟩ else s
      s.setPc t (.idle (.server added id serverId))
  | .delServer call serverId =>
    s.ask t (treeNodeDel root s.master c (serverPath call.api call.name serverId.toInt)) fun s ret =>
      s.prune.setPc t (.idle (.flag ret))
  | .failed => none

def ServiceState.begin (s : ServiceState) (t : ThreadId) (call : ServiceCall) : ServiceState :=
  match call.job with
  | .deregisterServer serverId => s.setPc t (.delServer call serverId)
  | _ => (s.setLock (s.lock.setPc t (.addPath call.key))).setPc t (.acquiring call)

def serviceDirectories : List Text := [pathLock, pathRpc, pathGenerateId]

/-- One step of clients that make the calls in `calls`, whose threads run only in the states that
`allowed` allows. Requests outside the directories are `other`. -/
inductive ServiceStep (root : RootPath) (calls : ServiceCall → Prop)
    (allowed : ServiceState → ThreadId → Prop) : ServiceState → ServiceState → Prop
  | call {s : ServiceState} (t : ThreadId) {call : ServiceCall} {ret : Return} (named : calls call)
      (idle : s.pc t = .idle ret) : ServiceStep root calls allowed s (s.begin t call)
  | run {s s' : ServiceState} (t : ThreadId) (ok : allowed s t)
      (advance : serviceAdvance root s t = some s') : ServiceStep root calls allowed s s'
  | disconnect {s : ServiceState} (c : ClientId) {temp : List Text} {m : State}
      {notified : List (ClientId × Text)} (collects : Collects s.master c temp)
      (clear : disconnectClearData s.master temp = some (m, notified)) :
      ServiceStep root calls allowed s
        (s.setLock { s.lock with master := m, offline := insert c s.lock.offline }).prune
  | other {s : ServiceState} (c : ClientId) {req : Request} {path : Text} {out : Outcome}
      (online : c ∉ s.lock.offline) (target : req.target = some path)
      (outside : ∀ dir ∈ serviceDirectories, ¬ Below (root.join dir) path)
      (handled : handleOp s.master c [] req = some out) :
      ServiceStep root calls allowed s (s.setMaster out.state)

def ServiceState.generates (s : ServiceState) (t : ThreadId) : Option Text :=
  match s.pc t, s.lock.pc t with
  | .acquiring _, .genNode name => some (lockPath name)
  | .genId call, _ => some (generatorPath call.api)
  | .genServerId call _ _, _ => some (generatorPath call.key)
  | _, _ => none

def Room (root : RootPath) (s : ServiceState) (t : ThreadId) : Prop :=
  ∀ path, s.generates t = some path → 0 ≤ s.master.gen (root.join path)

instance (root : RootPath) (s : ServiceState) (t : ThreadId) : Decidable (Room root s t) :=
  match h : s.generates t with
  | none => isTrue fun path eq => by rw [h] at eq; cases eq
  | some path => decidable_of_iff (0 ≤ s.master.gen (root.join path))
      ⟨fun room p eq => by rw [h] at eq; cases eq; exact room, fun room => room path h⟩

def ServiceState.start (m : State) : ServiceState :=
  ⟨.start m, fun _ => .idle .nothing, [], [], fun _ => none⟩

structure ServiceInit (root : RootPath) (s : ServiceState) : Prop where
  lock : LockInit root s.lock
  dirs : ∀ dir ∈ serviceDirectories, EmptyDir s.master (root.join dir)
  idle : ∀ t, s.pc t = .idle .nothing
  assigned : s.assigned = []
  released : s.released = []
  live : ∀ p, s.live p = none

abbrev ServiceReachable (root : RootPath) (calls : ServiceCall → Prop)
    (allowed : ServiceState → ThreadId → Prop) : ServiceState → Prop :=
  Reachable (ServiceInit root) (ServiceStep root calls allowed)

structure ServerInfo where
  serverId : Int
  globalRank : Int
  deriving DecidableEq

structure RpcServiceInfo where
  rpcServiceName : Text
  rpcId : Int
  servers : List ServerInfo
  deriving DecidableEq

def commRank (x : Int) : Int := Int.bmod x (2 ^ 16)

/-- The loop over the children of the service's node. The result is `none` if a number does not
parse or a request fails. -/
def readServers (root : RootPath) (m : State) (c : ClientId) (path : Text) :
    List Text → Option (List ServerInfo)
  | [] => some []
  | sid :: sids =>
    match (treeNodeGet root m c (child path sid)).2 with
    | none => none
    | some none => readServers root m c path sids
    | some (some gRank) => do
      let serverId ← picoLexicalCastInt sid
      let globalRank ← picoLexicalCastInt gRank
      let servers ← readServers root m c path sids
      return ⟨serverId, commRank globalRank⟩ :: servers

/-- `get_rpc_service_info` of one service, all of whose requests the Master answers from `m`. The
result is `none` if a check fails and `some none` if the call returns false. -/
def getRpcServiceInfo (root : RootPath) (m : State) (c : ClientId) (api name : Text) :
    Option (Option RpcServiceInfo) :=
  let path := servicePath api name
  match (treeNodeGet root m c path).2 with
  | none => none
  | some none => some none
  | some (some rpcId) => do
    let rpcId ← picoLexicalCastInt rpcId
    match ← (treeNodeSub root m c path).2 with
    | none => some none
    | some sids =>
      let servers ← readServers root m c path sids
      return some ⟨name, rpcId, servers⟩

inductive ServiceAction
  | call (t : ThreadId) (made : ServiceCall)
  | run (t : ThreadId)

def ServiceAction.allowed (calls : ServiceCall → Prop) : ServiceAction → Prop
  | .call _ made => calls made
  | _ => True

instance (calls : ServiceCall → Prop) [DecidablePred calls] : DecidablePred (ServiceAction.allowed calls)
  | .call _ made => inferInstanceAs (Decidable (calls made))
  | .run _ => isTrue trivial

def serviceApply (root : RootPath) (ok : ServiceState → ThreadId → Bool) (s : ServiceState) :
    ServiceAction → Option ServiceState
  | .call t call =>
    match s.pc t with
    | .idle _ => some (s.begin t call)
    | _ => none
  | .run t => if ok s t then serviceAdvance root s t else none

theorem serviceApply_step {root : RootPath} {calls : ServiceCall → Prop}
    {allowed : ServiceState → ThreadId → Prop} {ok : ServiceState → ThreadId → Bool}
    (sound : ∀ s t, ok s t = true → allowed s t) {s s' : ServiceState} {action : ServiceAction}
    (made : action.allowed calls) (applied : serviceApply root ok s action = some s') :
    ServiceStep root calls allowed s s' := by
  cases action with
  | call t call =>
    simp only [serviceApply] at applied
    split at applied
    · rename_i ret idle
      cases applied
      exact .call t made idle
    · cases applied
  | run t =>
    simp only [serviceApply, Option.ite_none_right_eq_some] at applied
    exact .run t (sound s t applied.1) applied.2

def serviceRun (root : RootPath) (ok : ServiceState → ThreadId → Bool)
    (actions : List ServiceAction) : Option ServiceState := do
  let m ← clientInitialize root .empty 0
  actions.foldlM (serviceApply root ok) (.start m)

theorem serviceRun_reachable {root : RootPath} {calls : ServiceCall → Prop}
    {allowed : ServiceState → ThreadId → Prop} {ok : ServiceState → ThreadId → Bool}
    (sound : ∀ s t, ok s t = true → allowed s t) {actions : List ServiceAction}
    (made : ∀ action ∈ actions, action.allowed calls) {s : ServiceState}
    (run : serviceRun root ok actions = some s) : ServiceReachable root calls allowed s := by
  obtain ⟨m, eq, tree, dirs⟩ := clientInitialize_ok root 0
  have start : ServiceInit root (.start m) :=
    ⟨⟨tree, dirs pathLock (by decide), rfl, fun _ => rfl, fun _ => rfl, fun _ _ => rfl⟩,
      fun dir mem => dirs dir (by revert dir; decide), fun _ => rfl, rfl, rfl, fun _ => rfl⟩
  simp only [serviceRun, eq, Option.bind_eq_bind, Option.bind_some] at run
  exact Reachable.foldlM (fun action mem s s' => serviceApply_step sound (made action mem))
    (.initial start) run

end Prpc.MasterClient
