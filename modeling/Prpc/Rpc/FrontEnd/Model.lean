import Mathlib.Data.Multiset.AddSub
import Prpc.Lib.Totals
import Prpc.Thread.MpscQueue

/-!
Threads that send on one client `FrontEnd`. The thread that raises `_sending_queue_size` from 0 is the
writer. It writes its own message and those that others have queued meanwhile, itself or in a task, and
hands them back to the context when the connection fails. Every call and every task is a thread of the
list, and every atomic operation a step.
-/

namespace Prpc.FrontEnd
open Lib

def FRONTEND_DISCONNECT : Nat := 1
def FRONTEND_CONNECT : Nat := 2
def FRONTEND_EPIPE : Nat := 4

/-- Where a thread stands. `cnt` is the local variable of that name. -/
inductive Pc (T : Type)
  /-- in `send_request`, before `available` -/
  | asking (msg : T)
  | calling (blocking : Bool) (msg : T)
  | pushing (msg : T)
  | linking (prev n : Nat)
  /-- the writer, before the test of the state in `send_msg_nonblock` -/
  | checking
  | looping (nonblock : Bool) (cnt : Nat)
  | sending (nonblock : Bool) (cnt : Nat)
  | refilling (nonblock : Bool)
  /-- `keep_writing`, before its first test -/
  | keeping (cnt : Nat)
  | connecting (cnt : Nat)
  | resuming (cnt : Nat)
  /-- `epipe`, before its first operation -/
  | failing (cnt : Nat)
  | handing (cnt : Nat)
  | draining (cnt : Nat)
  | drainPopping
  /-- `epipe`, before its last operation -/
  | restoring
  | done
  | crashed
  deriving DecidableEq

structure State (T : Type) where
  state : Nat
  /-- how many connections were made; the socket is null before the first one -/
  sockets : Nat
  size : Int
  queue : MpscQueue T
  /-- `_msg` and `_sending_msg`, `none` when moved from -/
  msg : Option T
  sendingMsg : Option T
  more : Bool
  /-- one of `_it1` and `_it2` has a next byte -/
  pending : Bool
  /-- the connection on which the pending message was begun -/
  begunOn : Nat
  clock : Nat
  epipeTime : Nat
  threads : List (Pc T)
  passed : Multiset T
  refused : Multiset T
  written : Multiset T
  /-- written in parts on two connections -/
  torn : Multiset T
  handed : Multiset T

inductive Outcome
  | ok
  | partway
  | fail
  deriving DecidableEq

def mail {T : Type} (msg : Option T) : Multiset T := (msg.toList : Multiset T)

variable {T : Type}

def initial : State T :=
  ⟨FRONTEND_DISCONNECT, 0, 0, .empty, none, none, false, false, 0, 0, 0, [], 0, 0, 0, 0, 0⟩

namespace State

def has (s : State T) (flag : Nat) : Bool := s.state &&& flag != 0

def available (s : State T) : Bool :=
  if s.has FRONTEND_EPIPE then
    if s.has FRONTEND_DISCONNECT then decide (10 < s.clock - s.epipeTime) else false
  else true

def goto (s : State T) (k : Nat) (pc : Pc T) : State T := { s with threads := s.threads.set k pc }

def async (s : State T) (k : Nat) (pc : Pc T) : State T := { s with threads := s.threads.set k .done ++ [pc] }

def shift (s : State T) : State T :=
  match s.queue.pop with
  | some (msg, queue) => { s with sendingMsg := s.msg, msg := some msg, more := true, queue := queue }
  | none => { s with sendingMsg := s.msg, msg := none, more := false }

def step (s : State T) (k : Nat) (outcome : Outcome) : Pc T → Option (State T)
  | .asking msg =>
    some (if s.available then s.goto k (.calling false msg)
      else { s.goto k .done with refused := msg ::ₘ s.refused })
  | .calling blocking msg =>
    let s' := { s with size := s.size + 1 }
    some (if s.size = 0 then
        { s'.goto k (if blocking then .keeping 0 else .checking) with
          msg := some msg, more := true, pending := false }
      else s'.goto k (.pushing msg))
  | .pushing msg =>
    let (queue, prev, n) := s.queue.exchange msg
    some { s.goto k (.linking prev n) with queue := queue }
  | .linking prev n => some { s.goto k .done with queue := s.queue.link prev n }
  | .checking =>
    some (if s.has FRONTEND_DISCONNECT then s.async k (.keeping 0) else s.goto k (.looping true 0))
  | .looping nonblock cnt =>
    if s.more then some (s.shift.goto k (.sending nonblock (cnt + 1)))
    else some { s.goto k (if s.size = cnt then .done else .refilling nonblock) with
      size := s.size - cnt }
  | .sending nonblock cnt =>
    if s.sockets = 0 then some (s.goto k .crashed)
    else match outcome with
      | .ok => some { s.goto k (.looping nonblock cnt) with written := s.written + mail s.sendingMsg }
      | .fail => some (s.goto k (.failing cnt))
      | .partway =>
        if nonblock then some { s.async k (.keeping cnt) with pending := true, begunOn := s.sockets }
        else none
  | .refilling nonblock =>
    match s.queue.pop with
    | some (msg, queue) =>
      some { s.goto k (.looping nonblock 0) with msg := some msg, more := true, queue := queue }
    | none => some s
  | .keeping cnt => some (s.goto k (if s.has FRONTEND_DISCONNECT then .connecting cnt else .resuming cnt))
  | .connecting cnt =>
    if s.has FRONTEND_DISCONNECT then
      match outcome with
      | .ok =>
        some { s.goto k (.resuming cnt) with
          state := FRONTEND_CONNECT, sockets := s.sockets + 1 }
      | _ => some (s.shift.goto k (.failing (cnt + 1)))
    else some (s.goto k (.resuming cnt))
  | .resuming cnt =>
    if s.pending then
      if s.sockets = 0 then some (s.goto k .crashed)
      else match outcome with
        | .ok =>
          let s' := { s.goto k (.looping false cnt) with pending := false }
          some (if s.begunOn = s.sockets then { s' with written := s.written + mail s.sendingMsg }
            else { s' with torn := s.torn + mail s.sendingMsg })
        | .fail => some (s.goto k (.failing cnt))
        | .partway => none
    else some (s.goto k (.looping false cnt))
  | .failing cnt =>
    some { s.goto k (.handing cnt) with
      state := FRONTEND_EPIPE, epipeTime := s.clock, pending := false }
  | .handing cnt =>
    some (if s.more then
        { s.goto k (.draining (cnt + 1)) with
          sendingMsg := none, msg := none, handed := s.handed + mail s.sendingMsg + mail s.msg }
      else
        { s.goto k (.draining cnt) with
          sendingMsg := none, handed := s.handed + mail s.sendingMsg })
  | .draining cnt =>
    some { s.goto k (if s.size = cnt then .restoring else .drainPopping) with size := s.size - cnt }
  | .drainPopping =>
    match s.queue.pop with
    | some (msg, queue) =>
      some { s.goto k (.draining 1) with queue := queue, handed := s.handed + mail (some msg) }
    | none => some s
  | .restoring => some { s.goto k .done with state := FRONTEND_DISCONNECT ||| FRONTEND_EPIPE }
  | .done | .crashed => none

end State

inductive Action (T : Type)
  | request (msg : T)
  | send (blocking : Bool) (msg : T)
  | go (k : Nat) (outcome : Outcome)
  | eventFails
  | tick

def act (s : State T) : Action T → Option (State T)
  | .request msg => some { s with threads := s.threads ++ [.asking msg], passed := msg ::ₘ s.passed }
  | .send blocking msg =>
    some { s with threads := s.threads ++ [.calling blocking msg], passed := msg ::ₘ s.passed }
  | .go k outcome => do s.step k outcome (← s.threads[k]?)
  | .eventFails => if s.sockets = 0 then none else some { s with state := FRONTEND_EPIPE }
  | .tick => some { s with clock := s.clock + 1 }

inductive FrontEndStep (guard : State T → Action T → Prop) : State T → State T → Prop
  | act {s s' : State T} (a : Action T) (guarded : guard s a) (acted : act s a = some s') :
      FrontEndStep guard s s'

abbrev FrontEndReachable (guard : State T → Action T → Prop) : State T → Prop :=
  Reachable (· = initial) (FrontEndStep guard)

theorem reachable_of_run (guard : State T → Action T → Prop) (check : State T → Action T → Bool)
    (sound : ∀ s a, check s a = true → guard s a) (actions : List (Action T)) (found : State T → Bool)
    (ran : (actions.foldlM (fun s a => if check s a then act s a else none) initial).any found = true) :
    ∃ s, FrontEndReachable guard s ∧ found s = true := by
  obtain ⟨s, run, holds⟩ := (Option.any_eq_true ..).1 ran
  refine ⟨s, .foldlM (fun a _ s t performed => ?_) (.initial rfl) run, holds⟩
  split at performed
  · next checked => exact .act a (sound s a checked) performed
  · cases performed

end Prpc.FrontEnd
