import Mathlib.Logic.Function.Basic
import Prpc.Lib.Fifo
import Prpc.Lib.Transition

/-!
`ChannelEntity`: a deque behind a mutex, with one slot beside it that never needs memory. What a thread
does from taking the mutex to leaving it, at the end of the call or in a wait, is one step. A wait can end
at any time, so it does not matter who is notified; a thread that waits goes for the mutex again and
checks again. An insertion into the deque may throw `bad_alloc`, and each step says which of its
insertions get their memory.
-/

namespace Prpc.ChannelEntity
open Lib

structure Channel (T : Type) where
  data : List T
  reservedData : List T
  sharedCount : Nat
  oomFlag : Bool
  closed : Bool
  capacity : Nat

namespace Channel
variable {T : Type}

def new (capacity : Nat) : Channel T := ⟨[], [], 0, false, false, capacity⟩

def size (c : Channel T) : Nat := c.data.length + c.reservedData.length

def sharedOpen (c : Channel T) : Channel T := { c with closed := false, sharedCount := c.sharedCount + 1 }

def open_ (c : Channel T) : Channel T := { c with closed := false }

def close (c : Channel T) : Channel T :=
  if c.sharedCount ≠ 0 ∧ c.sharedCount - 1 ≠ 0 then { c with sharedCount := c.sharedCount - 1 }
  else { c with sharedCount := c.sharedCount - 1, closed := true }

def setCapacity (c : Channel T) (capacity : Nat) : Channel T := { c with capacity := capacity }

def full (c : Channel T) : Prop := c.size ≥ c.capacity

instance (c : Channel T) : Decidable c.full := inferInstanceAs (Decidable (_ ≥ _))

def empty (c : Channel T) : Prop := c.data = [] ∧ c.reservedData = []

instance (c : Channel T) : Decidable c.empty :=
  decidable_of_iff (c.data.isEmpty ∧ c.reservedData.isEmpty) (by simp [empty])

def wasRead (c : Channel T) : Channel T := if c.closed then c else { c with oomFlag := false }

/-- `none` is the result false. The slot is read at its front and popped at its back. -/
def readUnlocked (c : Channel T) : Option T × Channel T :=
  match c.reservedData, c.data with
  | val :: _, _ => (some val, { c with reservedData := c.reservedData.dropLast }.wasRead)
  | [], val :: data => (some val, { c with data := data }.wasRead)
  | [], [] => (none, c)

/-- `read` of up to `n` values until the mutex is left: what was read, and whether the call returns. -/
def readMany : Nat → Channel T → List T × Bool × Channel T
  | 0, c => ([], true, c)
  | n + 1, c =>
    if ¬ c.empty ∨ c.closed then
      match c.readUnlocked with
      | (some val, c) =>
        let (vals, returns, c) := readMany n c
        (val :: vals, returns, c)
      | (none, c) => ([], true, c)
    else ([], false, c)

def tryRead (c : Channel T) : Option T × Channel T := if c.empty then (none, c) else c.readUnlocked

/-- `write_unlocked` and `write_move_unlocked`; `none` is `bad_alloc`. -/
def writeUnlocked (c : Channel T) (memory : Bool) (val : T) : Option (Bool × Channel T) :=
  if c.closed ∨ c.full then some (false, c)
  else if c.empty then some (true, { c with reservedData := c.reservedData ++ [val] })
  else if memory then some (true, { c with data := c.data ++ [val] })
  else none

def mayWrite (c : Channel T) : Prop := (c.oomFlag = false ∧ ¬ c.full) ∨ c.closed = true

instance (c : Channel T) : Decidable c.mayWrite := inferInstanceAs (Decidable (_ ∨ _))

/-- `write` and `write_move` of values until the mutex is left: how many were written, and whether the call
returns. After `bad_alloc` the flag is set, so the next wait does leave it. -/
def writeMany : List Bool → List T → Channel T → Nat × Bool × Channel T
  | _, [], c => (0, true, c)
  | memory, val :: vals, c =>
    if c.mayWrite then
      match c.writeUnlocked (memory.headD true) val with
      | some (true, c) =>
        let (written, returns, c) := writeMany memory.tail vals c
        (written + 1, returns, c)
      | some (false, c) => (0, true, c)
      | none => (0, false, { c with oomFlag := true })
    else (0, false, c)

def tryWrite (c : Channel T) (memory : Bool) (val : T) : Bool × Channel T :=
  if c.closed ∨ c.full then (false, c)
  else (c.writeUnlocked memory val).getD (false, c)

end Channel

/-- What a call returned. `read(val)` and `write(val)` ask for one value, and the result is true if they
got through with it. -/
inductive Result (T : Type)
  | read (asked : Nat) (got : List T)
  | wrote (vals : List T) (written : Nat)
  | tryRead (val : Option T)
  | tryWrote (val : T) (done : Bool)
  deriving DecidableEq

inductive Thread (T : Type)
  | idle
  | reading (asked : Nat) (got : List T)
  | writing (vals : List T) (written : Nat)
  | returned (result : Result T)
  deriving DecidableEq

def Thread.Free {T : Type} : Thread T → Prop
  | .idle | .returned _ => True
  | _ => False

instance {T : Type} (t : Thread T) : Decidable t.Free :=
  match t with
  | .idle | .returned _ => .isTrue trivial
  | .reading .. | .writing .. => .isFalse id

structure State (ι T : Type) where
  channel : Channel T
  threads : ι → Thread T
  /-- what has happened, in the order of the steps, and in which thread -/
  log : List (Option ι × FifoEvent T)

variable {ι T : Type} [DecidableEq ι]

def initial (capacity : Nat) : State ι T := ⟨.new capacity, fun _ => .idle, []⟩

inductive Action (ι T : Type)
  | read (i : ι) (n : Nat)
  | write (i : ι) (vals : List T)
  | tryRead (i : ι)
  | tryWrite (i : ι) (val : T) (memory : Bool)
  /-- the thread has the mutex, for the first time in a call or after a wait -/
  | go (i : ι) (memory : List Bool)
  | sharedOpen
  | open_
  | close
  | setCapacity (capacity : Nat)

def readEvents (asked : Nat) (vals : List T) (returns : Bool) : List (FifoEvent T) :=
  vals.map .pop ++ if returns ∧ vals.length < asked then [.drained] else []

def writeEvents (vals : List T) (written : Nat) (returns : Bool) : List (FifoEvent T) :=
  (vals.take written).map .push ++ if returns ∧ written < vals.length then [.reject] else []

namespace State

def step (s : State ι T) (i : ι) (c : Channel T) (t : Thread T) (events : List (FifoEvent T)) : State ι T :=
  ⟨c, Function.update s.threads i t, s.log ++ events.map (some i, ·)⟩

def readStep (s : State ι T) (i : ι) (asked : Nat) (got : List T) : State ι T :=
  let (vals, returns, c) := s.channel.readMany (asked - got.length)
  s.step i c (if returns then .returned (.read asked (got ++ vals)) else .reading asked (got ++ vals))
    (readEvents (asked - got.length) vals returns)

def writeStep (s : State ι T) (i : ι) (memory : List Bool) (vals : List T) (written : Nat) : State ι T :=
  let (more, returns, c) := s.channel.writeMany memory (vals.drop written)
  s.step i c (if returns then .returned (.wrote vals (written + more)) else .writing vals (written + more))
    (writeEvents (vals.drop written) more returns)

def tryReadStep (s : State ι T) (i : ι) : State ι T :=
  let (val, c) := s.channel.tryRead
  s.step i c (.returned (.tryRead val)) [match val with | some val => .pop val | none => .tryEmpty]

def tryWriteStep (s : State ι T) (i : ι) (val : T) (memory : Bool) : State ι T :=
  let (done, c) := s.channel.tryWrite memory val
  s.step i c (.returned (.tryWrote val done)) [if done then .push val else .tryReject]

def setChannel (s : State ι T) (c : Channel T) : State ι T :=
  { s with
    channel := c
    log := s.log ++ if c.closed = s.channel.closed then [] else [(none, .setClosed c.closed)] }

end State

def act (s : State ι T) : Action ι T → Option (State ι T)
  | .read i n => if (s.threads i).Free then some (s.step i s.channel (.reading n []) []) else none
  | .write i vals => if (s.threads i).Free then some (s.step i s.channel (.writing vals 0) []) else none
  | .tryRead i => if (s.threads i).Free then some (s.tryReadStep i) else none
  | .tryWrite i val memory => if (s.threads i).Free then some (s.tryWriteStep i val memory) else none
  | .go i memory =>
    match s.threads i with
    | .reading asked got => some (s.readStep i asked got)
    | .writing vals written => some (s.writeStep i memory vals written)
    | _ => none
  | .sharedOpen => some (s.setChannel s.channel.sharedOpen)
  | .open_ => some (s.setChannel s.channel.open_)
  | .close => some (s.setChannel s.channel.close)
  | .setCapacity capacity =>
    if capacity ≥ 1 then some (s.setChannel (s.channel.setCapacity capacity)) else none

def Action.Regular : Action ι T → Prop
  | .go _ memory => ∀ enough ∈ memory, enough = true
  | .tryWrite _ _ memory => memory = true
  | .setCapacity _ => False
  | _ => True

inductive Step (allowed : State ι T → Action ι T → Prop) : State ι T → State ι T → Prop
  | act {s s' : State ι T} (a : Action ι T) (allows : allowed s a) (done : act s a = some s') :
      Step allowed s s'

abbrev ChannelReachable (capacity : Nat) (allowed : State ι T → Action ι T → Prop) : State ι T → Prop :=
  Reachable (fun s => s = initial capacity) (Step allowed)

end Prpc.ChannelEntity
