import Mathlib.Data.Finmap
import Mathlib.Data.Finset.Sort
import Prpc.Common.Numerals
import Prpc.Lib.PathText

/-!
The coordination tree of `Master.cpp`: a flat map from path strings to nodes, each node with the
set of its children's names, and the counters behind generated names. One request is handled at a
time, so every function here is a function of the whole state. A failed `SCHECK` ends the process
and is the result `none`.
-/

namespace Prpc.Master
open Lib

inductive MasterStatus
  | OK
  | NODE_FAILED
  | PATH_FAILED
  | DISCONNECTED
  | ERROR
  deriving DecidableEq, Repr

/-- A connection, the `TcpSocket*` of the source. -/
abbrev ClientId := Nat

structure MasterNode where
  owner : Option ClientId := none
  value : Text := []
  sub : Finset Text := ∅
  deriving DecidableEq

structure State where
  genId : Finmap fun _ : Text => Int
  path : Finmap fun _ : Text => MasterNode
  watchers : Finset ClientId

def State.empty : State := ⟨∅, ∅, ∅⟩

def State.gen (s : State) (p : Text) : Int := (s.genId.lookup p).getD 0

inductive Request
  | gen (parent value : Text) (ephemeral : Bool)
  | add (path value : Text) (ephemeral : Bool)
  | del (path : Text)
  | get (path : Text)
  | set (path value : Text)
  | sub (path : Text)
  | exit
  | clientFinalize
  deriving DecidableEq, Repr

inductive Response
  | status (code : MasterStatus)
  | key (key : Text)
  | value (value : Text)
  | children (children : List Text)
  | nothing
  deriving DecidableEq, Repr

/-- The status a client reads first; results other than bare codes follow an `OK`. -/
def Response.code : Response → MasterStatus
  | .status code => code
  | .nothing => .ERROR
  | _ => .OK

structure Outcome where
  state : State
  resp : Response
  notified : List (ClientId × Text) := []

def noEmptySegment : Text → Bool
  | [] => true
  | [c] => c ≠ '/'
  | c :: d :: rest => !(c = '/' && d = '/') && noEmptySegment (d :: rest)

def masterCheckValidPath (path : Text) : Bool :=
  match path with
  | [] => false
  | c :: _ => c = '/' && noEmptySegment path

def genKey (x : Int) : Text := '_' :: (toText x).leftpad 10 '0'

def notifyWatchers (s : State) (path : Text) : List (ClientId × Text) :=
  s.watchers.sort.map fun c => (c, path)

def ownerOf (c : ClientId) (ephemeral : Bool) : Option ClientId := if ephemeral then some c else none

def masterGen (s : State) (c : ClientId) (parent value : Text) (ephemeral : Bool) : Option Outcome :=
  if !masterCheckValidPath parent then
    some { state := s, resp := .status .ERROR }
  else
    match s.path.lookup parent with
    | none => some { state := s, resp := .status .NODE_FAILED }
    | some pit =>
      if pit.owner ≠ none then
        some { state := s, resp := .status .NODE_FAILED }
      else
        let key := genKey (s.gen parent)
        let path := child parent key
        let s := { s with genId := s.genId.insert parent (int32 (s.gen parent + 1)) }
        if key.length > 11 then
          some { state := s, resp := .status .ERROR }
        else if path ∈ s.path then
          some { state := s, resp := .status .PATH_FAILED }
        else if key ∈ pit.sub then
          none
        else
          let node : MasterNode := ⟨ownerOf c ephemeral, value, ∅⟩
          let s := { s with
            path := (s.path.insert path node).insert parent { pit with sub := insert key pit.sub } }
          some { state := s, resp := .key key, notified := notifyWatchers s path }

def masterAdd (s : State) (c : ClientId) (path value : Text) (ephemeral : Bool) : Option Outcome :=
  if !masterCheckValidPath path then
    some { state := s, resp := .status .ERROR }
  else
    let key := keyOf path
    let parent := parentOf path
    match s.path.lookup parent with
    | none => some { state := s, resp := .status .PATH_FAILED }
    | some pit =>
      if pit.owner ≠ none then
        some { state := s, resp := .status .PATH_FAILED }
      else if path ∈ s.path then
        some { state := s, resp := .status .NODE_FAILED }
      else if key ∈ pit.sub then
        none
      else
        let node : MasterNode := ⟨ownerOf c ephemeral, value, ∅⟩
        let s := { s with
          path := (s.path.insert path node).insert parent { pit with sub := insert key pit.sub } }
        some { state := s, resp := .status .OK, notified := notifyWatchers s path }

def masterDel (s : State) (path : Text) : Option Outcome :=
  if !masterCheckValidPath path then
    some { state := s, resp := .status .ERROR }
  else
    let key := keyOf path
    let parent := parentOf path
    match s.path.lookup path with
    | none => some { state := s, resp := .status .NODE_FAILED }
    | some it =>
      if it.sub ≠ ∅ then
        some { state := s, resp := .status .PATH_FAILED }
      else
        let s := { s with path := s.path.erase path, genId := s.genId.erase path }
        match s.path.lookup parent with
        | none => none
        | some pit =>
          if key ∉ pit.sub then
            none
          else
            let s := { s with path := s.path.insert parent { pit with sub := pit.sub.erase key } }
            some { state := s, resp := .status .OK, notified := notifyWatchers s path }

def masterSet (s : State) (path value : Text) : Option Outcome :=
  if !masterCheckValidPath path then
    some { state := s, resp := .status .ERROR }
  else
    match s.path.lookup path with
    | none => some { state := s, resp := .status .NODE_FAILED }
    | some it =>
      let s := { s with path := s.path.insert path { it with value := value } }
      some { state := s, resp := .status .OK, notified := notifyWatchers s path }

def masterGet (s : State) (path : Text) : Option Outcome :=
  if !masterCheckValidPath path then
    some { state := s, resp := .status .ERROR }
  else
    match s.path.lookup path with
    | none => some { state := s, resp := .status .NODE_FAILED }
    | some it => some { state := s, resp := .value it.value }

def masterSub (s : State) (path : Text) : Option Outcome :=
  if !masterCheckValidPath path then
    some { state := s, resp := .status .ERROR }
  else
    match s.path.lookup path with
    | none => some { state := s, resp := .status .NODE_FAILED }
    | some it => some { state := s, resp := .children it.sub.sort }

/-- One turn of the second loop of `disconnect_clear_data`. The lookup of the parent is by
`operator[]`, which would create the node. -/
def clearPath (s : State) (path : Text) : Option State :=
  let key := keyOf path
  let parent := parentOf path
  if path ∉ s.path then
    none
  else
    let m := s.path.erase path
    let pit := (m.lookup parent).getD {}
    if key ∉ pit.sub then
      none
    else
      some { s with path := m.insert parent { pit with sub := pit.sub.erase key } }

def clearPaths (s : State) : List Text → Option (State × List (ClientId × Text))
  | [] => some (s, [])
  | path :: temp => do
    let t ← clearPath s path
    let (u, notified) ← clearPaths t temp
    return (u, notifyWatchers t path ++ notified)

def ownedPaths (s : State) (c : ClientId) : Finset Text :=
  s.path.keys.filter fun p => (s.path.lookup p).any (·.owner = some c)

/-- `temp` is what the first loop of `disconnect_clear_data` collects from the unordered map: the
paths of `c`'s nodes, each once, in an order of the map's choosing. -/
def Collects (s : State) (c : ClientId) (temp : List Text) : Prop :=
  temp.Nodup ∧ temp.toFinset = ownedPaths s c

instance (s : State) (c : ClientId) (temp : List Text) : Decidable (Collects s c temp) :=
  inferInstanceAs (Decidable (_ ∧ _))

def disconnectClearData (s : State) (temp : List Text) : Option (State × List (ClientId × Text)) :=
  clearPaths s temp

/-- `_path[""]`, which `handle_op` evaluates for its effect. -/
def touchRoot (s : State) : State := if [] ∈ s.path then s else { s with path := s.path.insert [] {} }

def handleOp (s : State) (c : ClientId) (temp : List Text) (req : Request) : Option Outcome :=
  let s := touchRoot s
  match req with
  | .gen parent value ephemeral => masterGen s c parent value ephemeral
  | .add path value ephemeral => masterAdd s c path value ephemeral
  | .del path => masterDel s path
  | .set path value => masterSet s path value
  | .get path => masterGet s path
  | .sub path => masterSub s path
  | .exit => some { state := s, resp := .nothing }
  | .clientFinalize => do
    let (t, notified) ← disconnectClearData s temp
    return { state := { t with watchers := t.watchers.erase c }, resp := .nothing, notified }

end Prpc.Master
