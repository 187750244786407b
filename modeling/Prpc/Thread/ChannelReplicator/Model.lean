import Prpc.Lib.RingIndex
import Prpc.Lib.Transition

/-!
`ChannelReplicator` with two or more outputs. One thread reads the input channel and puts what it reads
into a ring of `cacheSize + 1` slots, and one thread for each output copies it from there. What a thread
does while it holds the mutex is one step. A thread in a wait on a condition variable has left the
mutex; it goes for it again when it is notified, or on its own. The thread that calls `initialize` starts
the others one by one.
-/

namespace Prpc.ChannelReplicator
open Lib

structure Setup where
  outputs : Nat
  cacheSize : Nat
  two_le : 2 ≤ outputs
  cacheSize_ne : cacheSize ≠ 0

inductive Starting
  | startCaching
  | setOpen
  | resize
  | startReplicating (i : Nat)
  deriving DecidableEq

/-- Where the thread stands in `caching`, with what it has read. -/
inductive Caching (T : Type)
  | notStarted
  | reading
  | locking (t : T)
  | waiting (t : T)
  | closing
  | returned
  deriving DecidableEq

/-- Where the thread stands in `replicating`, with what it has copied. -/
inductive Replicating (T : Type)
  | notStarted
  | locking
  | waiting
  | writing (t : T)
  | returned
  deriving DecidableEq

structure State (T : Type) where
  input : List T
  inputClosed : Bool
  received : List T
  starting : Starting
  caching : Caching T
  dataCache : List T
  begin_ : Nat
  end_ : Nat
  readPos : List Nat
  cachingClosed : Bool
  replicating : Nat → Replicating T
  /-- what has been written to each output -/
  written : Nat → List T

variable {T : Type}

def initial [Inhabited T] (c : Setup) : State T :=
  ⟨[], false, [], .startCaching, .notStarted, List.replicate (c.cacheSize + 1) default, 0, 0, [], true,
    fun _ => .notStarted, fun _ => []⟩

def Caching.notify : Caching T → Caching T
  | .waiting t => .locking t
  | pc => pc

def Replicating.notify : Replicating T → Replicating T
  | .waiting => .locking
  | pc => pc

namespace State

def advancePos (s : State T) (pos : Nat) : Nat := (pos + 1) % s.dataCache.length

def frontOf (s : State T) (pos1 pos2 : Nat) : Prop :=
  (pos1 + s.dataCache.length - s.begin_) % s.dataCache.length <
    (pos2 + s.dataCache.length - s.begin_) % s.dataCache.length

instance (s : State T) (pos1 pos2 : Nat) : Decidable (s.frontOf pos1 pos2) :=
  inferInstanceAs (Decidable (_ < _))

def size (s : State T) : Nat := (s.end_ + s.dataCache.length - s.begin_) % s.dataCache.length

def full (s : State T) : Prop := s.size + 1 = s.dataCache.length

instance (s : State T) : Decidable s.full := inferInstanceAs (Decidable (_ = _))

def setReplicating (s : State T) (i : Nat) (pc : Replicating T) : State T :=
  { s with replicating := Function.update s.replicating i pc }

def notifyAll (s : State T) : State T := { s with replicating := fun i => (s.replicating i).notify }

/-- `_not_full_cond.notify_one()`, for which only the caching thread can wait -/
def notifyOne (s : State T) : State T := { s with caching := s.caching.notify }

def minPos (s : State T) (own : Nat) : Nat :=
  s.readPos.foldl (fun min_pos pos => if s.frontOf pos min_pos then pos else min_pos) own

def moveBegin (s : State T) (min_pos : Nat) : State T :=
  if s.frontOf s.begin_ min_pos then { s with begin_ := min_pos }.notifyOne else s

def copied (s : State T) (i pos : Nat) (t : T) : State T :=
  let own := s.advancePos pos
  let s := { s with readPos := s.readPos.set i own }
  (s.moveBegin (s.minPos own)).setReplicating i (.writing t)

def replicate (s : State T) (i : Nat) : Option (State T) :=
  match s.replicating i, s.readPos[i]? with
  | .locking, some pos =>
    if pos = s.end_ then
      some (s.setReplicating i (if s.cachingClosed then .returned else .waiting))
    else s.dataCache[pos]?.map (s.copied i pos)
  | _, _ => none

def write (s : State T) (i : Nat) : Option (State T) :=
  match s.replicating i with
  | .writing t =>
    some ({ s with written := Function.update s.written i (s.written i ++ [t]) }.setReplicating i .locking)
  | _ => none

def read (s : State T) : Option (State T) :=
  match s.caching, s.input with
  | .reading, t :: input => some { s with input := input, received := s.received ++ [t], caching := .locking t }
  | .reading, [] => if s.inputClosed then some { s with caching := .closing } else none
  | _, _ => none

def cache (s : State T) : Option (State T) :=
  match s.caching with
  | .locking t =>
    if s.full then some { s with caching := .waiting t }
    else some { s with
      dataCache := s.dataCache.set s.end_ t, end_ := s.advancePos s.end_, caching := .reading }.notifyAll
  | .closing => some { s with cachingClosed := true, caching := .returned }.notifyAll
  | _ => none

def start (c : Setup) (s : State T) : Option (State T) :=
  match s.starting with
  | .startCaching => some { s with caching := .reading, starting := .setOpen }
  | .setOpen => some { s with cachingClosed := false, starting := .resize }
  | .resize => some { s with readPos := List.replicate c.outputs 0, starting := .startReplicating 0 }
  | .startReplicating i =>
    if i < c.outputs then some ({ s with starting := .startReplicating (i + 1) }.setReplicating i .locking)
    else none

end State

inductive Action (T : Type)
  | send (t : T)
  | close
  | start
  | read
  | cache
  | replicate (i : Nat)
  | write (i : Nat)
  | wakeCaching
  | wakeReplicating (i : Nat)

def act (c : Setup) (s : State T) : Action T → Option (State T)
  | .send t => if s.inputClosed then none else some { s with input := s.input ++ [t] }
  | .close => some { s with inputClosed := true }
  | .start => s.start c
  | .read => s.read
  | .cache => s.cache
  | .replicate i => s.replicate i
  | .write i => s.write i
  | .wakeCaching => some s.notifyOne
  | .wakeReplicating i => some (s.setReplicating i (s.replicating i).notify)

inductive Step (c : Setup) : State T → State T → Prop
  | act {s s' : State T} (a : Action T) (done : act c s a = some s') : Step c s s'

abbrev ReplicatorReachable [Inhabited T] (c : Setup) : State T → Prop :=
  Reachable (fun s => s = initial c) (Step c)

end Prpc.ChannelReplicator
