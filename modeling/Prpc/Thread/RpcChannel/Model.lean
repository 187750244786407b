import Prpc.Lib.Counting
import Prpc.Thread.MpscQueue

/-!
Any number of senders and one receiver. The exchange and the link of a push, every operation on
`_size` and every read or write of the eventfd is a step of its own. A read of the eventfd waits for
a token, and `poll` may time out at any point.
-/

namespace Prpc.RpcChannel
open Lib

inductive Sender
  | idle
  | linking (prev n : Nat)
  | adding (n : Nat)
  | writing (n : Nat)
  deriving DecidableEq

inductive Receiver (T : Type)
  | idle
  | spinning (timeout : Int) (left : Nat)
  /-- popped in the loop, before the operation on `_size` -/
  | popped (timeout : Int) (item : T)
  /-- popped in the loop, before the read -/
  | absorbing (timeout : Int) (item : T)
  | subtracting (timeout : Int)
  | reading
  | loading
  | popping (timeout : Int)
  | polling (timeout : Int)
  /-- `poll` timed out -/
  | undoing (timeout : Int)
  | pollReading (timeout : Int)
  | pollPopping (timeout : Int)
  | returned (timeout : Int) (result : Option T)
  | failed
  deriving DecidableEq

structure State (ι T : Type) where
  queue : MpscQueue (ι × T)
  size : Int
  tokens : Nat
  senders : ι → Sender
  receiver : Receiver (ι × T)
  received : List (ι × T)
  terminates : Nat

variable {ι T : Type} [DecidableEq ι]

def initial : State ι T := ⟨.empty, 0, 0, fun _ => .idle, .idle, [], 0⟩

namespace State

def setSender (s : State ι T) (i : ι) (pc : Sender) : State ι T :=
  { s with senders := Function.update s.senders i pc }

def send (s : State ι T) (i : ι) (item : T) : Option (State ι T) :=
  match s.senders i with
  | .idle =>
    let (queue, prev, n) := s.queue.exchange (i, item)
    some ({ s with queue := queue }.setSender i (.linking prev n))
  | _ => none

def goSender (s : State ι T) (i : ι) : Option (State ι T) :=
  match s.senders i with
  | .idle => none
  | .linking prev n => some ({ s with queue := s.queue.link prev n }.setSender i (.adding n))
  | .adding n =>
    some ({ s with size := s.size + 1 }.setSender i (if s.size = -1 then .writing n else .idle))
  | .writing _ => some ({ s with tokens := s.tokens + 1 }.setSender i .idle)

def recv (s : State ι T) (timeout : Int) (spinCount : Nat) : Option (State ι T) :=
  match s.receiver with
  | .idle | .returned .. => some { s with receiver := .spinning timeout spinCount }
  | _ => none

def deliver (s : State ι T) (timeout : Int) (item : ι × T) : State ι T :=
  { s with receiver := .returned timeout (some item), received := s.received ++ [item] }

def read (s : State ι T) : Option (State ι T) :=
  if s.tokens = 0 then none else some { s with tokens := s.tokens - 1 }

def goReceiver (s : State ι T) : Option (State ι T) :=
  match s.receiver with
  | .idle | .returned .. | .failed => none
  | .spinning timeout 0 =>
    some (if timeout = 0 then { s with receiver := .returned timeout none }
      else { s with receiver := .subtracting timeout })
  | .spinning timeout (left + 1) =>
    match s.queue.pop with
    | some (item, queue) => some { s with queue := queue, receiver := .popped timeout item }
    | none => some { s with receiver := .spinning timeout left }
  | .popped timeout item =>
    let s' := { s with size := s.size - 1 }
    some (if s.size = 0 then { s' with receiver := .absorbing timeout item }
      else s'.deliver timeout item)
  | .absorbing timeout item => s.read.map fun s => s.deliver timeout item
  | .subtracting timeout =>
    some { s with
      size := s.size - 1
      receiver :=
        if s.size < 0 then .failed
        else if s.size = 0 then if timeout = -1 then .reading else .polling timeout
        else .popping timeout }
  | .reading => s.read.map fun s => { s with receiver := .loading }
  | .loading =>
    some { s with receiver := if 0 ≤ s.size then .popping (-1) else .returned (-1) none }
  | .popping timeout =>
    match s.queue.pop with
    | some (item, queue) => some ({ s with queue := queue }.deliver timeout item)
    | none => some s
  | .polling timeout => if s.tokens = 0 then none else some { s with receiver := .pollReading timeout }
  | .undoing timeout => some { s with size := s.size + 1, receiver := .returned timeout none }
  | .pollReading timeout => s.read.map fun s => { s with receiver := .pollPopping timeout }
  | .pollPopping timeout =>
    match s.queue.pop with
    | some (item, queue) => some ({ s with queue := queue }.deliver timeout item)
    | none => some { s with receiver := .returned timeout none }

def pollTimeout (s : State ι T) : Option (State ι T) :=
  match s.receiver with
  | .polling timeout => if 0 < timeout then some { s with receiver := .undoing timeout } else none
  | _ => none

def terminate (s : State ι T) : State ι T := { s with tokens := s.tokens + 1, terminates := s.terminates + 1 }

end State

inductive Action (ι T : Type)
  | send (i : ι) (item : T)
  | goSender (i : ι)
  | recv (timeout : Int) (spinCount : Nat)
  | goReceiver
  | pollTimeout
  | terminate

def act (s : State ι T) : Action ι T → Option (State ι T)
  | .send i item => s.send i item
  | .goSender i => s.goSender i
  | .recv timeout spinCount => s.recv timeout spinCount
  | .goReceiver => s.goReceiver
  | .pollTimeout => s.pollTimeout
  | .terminate => some s.terminate

/-- How a channel is used: without `terminate` and positive timeouts, by a receiver that goes on until
`terminate` ends it, or with timeouts. -/
inductive Use
  | blocking
  | terminated
  | timed
  deriving DecidableEq

def Use.Allows (use : Use) (s : State ι T) : Action ι T → Prop
  | .recv timeout _ =>
    match use with
    | .blocking => timeout = -1 ∨ timeout = 0
    | .terminated => timeout = -1 ∧ s.receiver ≠ .returned (-1) none
    | .timed => -1 ≤ timeout
  | .terminate => use = .terminated ∧ s.terminates = 0
  | _ => True

inductive ChannelStep (use : Use) (guard : State ι T → Action ι T → Prop) : State ι T → State ι T → Prop
  | act {s s' : State ι T} (a : Action ι T) (allowed : use.Allows s a) (guarded : guard s a)
      (acted : act s a = some s') : ChannelStep use guard s s'

abbrev ChannelReachable (use : Use) (guard : State ι T → Action ι T → Prop) : State ι T → Prop :=
  Reachable (· = initial) (ChannelStep use guard)

def anytime : State ι T → Action ι T → Prop := fun _ _ => True

end Prpc.RpcChannel
