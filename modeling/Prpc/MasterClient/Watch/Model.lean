import Prpc.Master.Announce
import Prpc.MasterClient.Calls

/-!
`AsyncWatcher`, the watcher table of a client and the thread that runs its callbacks, for any number of
clients. A request is one step of the Master, which puts its notifications into the queues of the clients.
A predicate reads from the Master several times, and everything else may happen between two reads.
-/

namespace Prpc.MasterClient.Watch
open Lib Master

/-- A predicate, by the reads it makes and what it does with the answers. -/
inductive Pred
  | done (result : Bool)
  | get (path : Text) (next : Option Text → Pred)
  | sub (path : Text) (next : Option (List Text) → Pred)

namespace Pred

def read (root : RootPath) (c : ClientId) (m : State) : Pred → State × Option Pred
  | .done _ => (m, none)
  | .get path next => (treeNodeGet root m c path).map id (Option.map next)
  | .sub path next => (treeNodeSub root m c path).map id (Option.map next)

def evaluate (root : RootPath) (c : ClientId) : Pred → State → Option Bool
  | .done result, _ => some result
  | .get path next, m =>
    match treeNodeGet root m c path with
    | (m, some value) => (next value).evaluate root c m
    | (_, none) => none
  | .sub path next, m =>
    match treeNodeSub root m c path with
    | (m, some children) => (next children).evaluate root c m
    | (_, none) => none

def Within (root : RootPath) (base : Text) : Pred → Prop
  | .done _ => True
  | .get path next => Below base (root.join path) ∧ ∀ value, (next value).Within root base
  | .sub path next => Below base (root.join path) ∧ ∀ children, (next children).Within root base

end Pred

/-- A call of `wait` on a watcher, with the watch that it relies on and the version it has seen. -/
structure Wait where
  watcher : Nat
  handle : Nat
  path : Text
  pred : Pred
  atom : Nat

inductive Thread
  | idle
  | evaluating (w : Wait) (rest : Pred)
  /-- in `watch(atom)`, before the test of `_version` -/
  | checking (w : Wait)
  /-- in `_cv.wait` -/
  | sleeping (w : Wait)

/-- The thread that runs the callbacks. A callback is known by the watcher that it notifies. -/
inductive Dispatcher
  | idle
  /-- in `notify_watchers`, with the paths that are still to be invoked -/
  | invoking (curs : List Text)
  /-- in `invoke`, with the callbacks that are still to be called -/
  | calling (callbacks : List (Option Nat)) (curs : List Text)
  /-- in `notify`, before `_cv.notify_all` -/
  | signaling (k : Nat) (callbacks : List (Option Nat)) (curs : List Text)

def Dispatcher.locksTable : Dispatcher → Bool
  | .calling .. | .signaling .. => true
  | _ => false

structure Client where
  /-- `_mp`, each callback with its handle -/
  table : Text → List (Nat × Option Nat)
  handles : Nat
  inbox : List Text
  dispatcher : Dispatcher
  version : Nat → Nat
  threads : Nat → Thread

def Client.fresh (version : Nat → Nat) : Client := ⟨fun _ => [], 0, [], .idle, version, fun _ => .idle⟩

def notifyPaths (cur : Text) : List Text → List Text
  | [] => []
  | seg :: segs => if seg = [] then notifyPaths cur segs else child cur seg :: notifyPaths (child cur seg) segs

def curs (path : Text) : List Text := notifyPaths [] (path.splitOn '/')

namespace Client

def setThread (cl : Client) (i : Nat) (t : Thread) : Client :=
  { cl with threads := Function.update cl.threads i t }

def insert (cl : Client) (key : Text) (callback : Option Nat) : Option Client :=
  if cl.dispatcher.locksTable ∨ masterCheckValidPath key = false then none
  else some { cl with
    table := Function.update cl.table key (cl.table key ++ [(cl.handles, callback)])
    handles := cl.handles + 1 }

def erase (cl : Client) (key : Text) (handle : Nat) : Option Client :=
  if cl.dispatcher.locksTable ∨ handle ∉ (cl.table key).map Prod.fst then none
  else some { cl with table := Function.update cl.table key ((cl.table key).filter (·.1 ≠ handle)) }

def wait (cl : Client) (i k handle : Nat) (key : Text) (pred : Pred) : Option Client :=
  match cl.threads i with
  | .idle =>
    if (handle, some k) ∈ cl.table key then
      some (cl.setThread i (.evaluating ⟨k, handle, key, pred, cl.version k⟩ pred))
    else none
  | _ => none

def finish (cl : Client) (i : Nat) : Option Client :=
  match cl.threads i with
  | .evaluating w (.done result) => some (cl.setThread i (if result then .idle else .checking w))
  | _ => none

def check (cl : Client) (i : Nat) : Option Client :=
  match cl.threads i with
  | .checking w =>
    some (cl.setThread i (if cl.version w.watcher = w.atom then .sleeping w
      else .evaluating { w with atom := cl.version w.watcher } w.pred))
  | _ => none

def wake (cl : Client) (i : Nat) : Option Client :=
  match cl.threads i with
  | .sleeping w => some (cl.setThread i (.checking w))
  | _ => none

def bump (cl : Client) (k : Nat) : Client :=
  { cl with version := Function.update cl.version k (cl.version k + 1) }

def signal (cl : Client) (k : Nat) : Client :=
  { cl with threads := fun i =>
      match cl.threads i with
      | .sleeping w => if w.watcher = k then .checking w else .sleeping w
      | t => t }

def receive (cl : Client) : Option Client :=
  match cl.dispatcher, cl.inbox with
  | .idle, path :: inbox => some { cl with inbox := inbox, dispatcher := .invoking (curs path) }
  | _, _ => none

def dispatch (cl : Client) : Option Client :=
  match cl.dispatcher with
  | .idle => none
  | .invoking [] => some { cl with dispatcher := .idle }
  | .invoking (cur :: curs) => some { cl with dispatcher := .calling ((cl.table cur).map Prod.snd) curs }
  | .calling [] curs => some { cl with dispatcher := .invoking curs }
  | .calling (none :: callbacks) curs => some { cl with dispatcher := .calling callbacks curs }
  | .calling (some k :: callbacks) curs => some { cl.bump k with dispatcher := .signaling k callbacks curs }
  | .signaling k callbacks curs => some { cl.signal k with dispatcher := .calling callbacks curs }

end Client

structure World where
  master : State
  clients : ClientId → Client

def World.initial : World := ⟨.empty, fun _ => .fresh fun _ => 0⟩

inductive LocalAction
  | insert (path : Text) (callback : Option Nat)
  | erase (key : Text) (handle : Nat)
  | wait (i k handle : Nat) (key : Text) (pred : Pred)
  | finish (i : Nat)
  | check (i : Nat)
  | wake (i : Nat)
  | bump (k : Nat)
  | receive
  | dispatch

inductive Action
  /-- `_version` is not set by the constructor -/
  | connect (c : ClientId) (version : Nat → Nat)
  | request (c : ClientId) (req : Request) (temp : List Text)
  | disconnect (c : ClientId) (temp : List Text)
  | read (c : ClientId) (i : Nat)
  | client (c : ClientId) (a : LocalAction)

def Client.act (root : RootPath) (cl : Client) : LocalAction → Option Client
  | .insert path callback => cl.insert (root.join path) callback
  | .erase key handle => cl.erase key handle
  | .wait i k handle key pred => cl.wait i k handle key pred
  | .finish i => cl.finish i
  | .check i => cl.check i
  | .wake i => cl.wake i
  | .bump k => some (cl.bump k)
  | .receive => cl.receive
  | .dispatch => cl.dispatch

namespace World

def put (W : World) (c : ClientId) (cl : Client) : World := { W with clients := Function.update W.clients c cl }

def serve (W : World) (master : State) (notified : List (ClientId × Text)) : World where
  master := master
  clients := fun c =>
    { W.clients c with inbox := (W.clients c).inbox ++ (notified.filter (·.1 = c)).map Prod.snd }

def read (root : RootPath) (W : World) (c : ClientId) (i : Nat) : Option World :=
  match (W.clients c).threads i with
  | .evaluating w rest =>
    match rest.read root c W.master with
    | (m, some next) => some ({ W with master := m }.put c ((W.clients c).setThread i (.evaluating w next)))
    | (_, none) => none
  | _ => none

end World

def act (root : ClientId → RootPath) (W : World) : Action → Option World
  | .connect c version =>
    if c ∈ W.master.watchers then none
    else some ({ W with master := { W.master with watchers := Insert.insert c W.master.watchers } }.put c
      (.fresh version))
  | .request c req temp =>
    if req = .clientFinalize → Collects (touchRoot W.master) c temp then
      (handleOp W.master c temp req).map fun out => W.serve out.state out.notified
    else none
  | .disconnect c temp =>
    if Collects W.master c temp then
      (disconnectClearData W.master temp).map fun (t, notified) =>
        W.serve { t with watchers := t.watchers.erase c } notified
    else none
  | .read c i => W.read (root c) c i
  | .client c a => ((W.clients c).act (root c) a).map (W.put c)

inductive Step (root : ClientId → RootPath) : World → World → Prop
  | act {W W' : World} (a : Action) (done : act root W a = some W') : Step root W W'

abbrev WatchReachable (root : ClientId → RootPath) : World → Prop := Reachable (· = .initial) (Step root)

end Prpc.MasterClient.Watch
