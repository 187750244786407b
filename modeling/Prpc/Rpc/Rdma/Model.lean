import Mathlib.Algebra.GroupWithZero.Nat
import Mathlib.Logic.Function.Basic
import Mathlib.Algebra.BigOperators.Group.List.Basic
import Prpc.Lib.Transition

/-!
Two connected sockets. On each side one thread sends and one thread handles the events of both completion
queues; every operation on an atomic, every call of the verbs layer and every read or write of the eventfd
is a step of its own. Sends arrive in the order in which they were posted, and each work request completes
once, at any time. An event may be handled at any time.
-/

namespace Prpc.Rdma
open Lib

def bnum : Nat := 8

def bsize : Nat := 32 * 1024

def ackNum (imm : Nat) : Nat := imm / 2 ^ 16

def addAckNum (imm cnt : Nat) : Nat := (imm + cnt * 2 ^ 16) % 2 ^ 32

def addReadCompleteNum (imm cnt : Nat) : Nat := (imm + cnt) % 2 ^ 32

def toUint32 (x : Int) : Nat := (x % 2 ^ 32).toNat

/-- A send with immediate data. An acknowledgement has no bytes. The messages that end in the bytes are given
by the numbers of their zero copy blocks. -/
structure Packet where
  byteLen : Nat
  msgs : List Nat
  imm : Nat
  deriving DecidableEq

inductive Completion
  | read
  | ack
  | send (id : Nat)
  deriving DecidableEq

inductive Sender
  | idle
  | taking (byteLen : Nat) (msgs : List Nat)
  | counting (p : Packet)
  | waiting (p : Packet)
  | posting (p : Packet)
  deriving DecidableEq

/-- Where the other thread stands in `handle_in_event`, in `handle_out_event` and at the end of both. -/
inductive Handler
  | idle
  | inPoll (ctl ack : Nat)
  | inEvent (wcs : List Packet) (again : Bool) (ctl ack : Nat)
  | addingAcks (ctl ack : Nat)
  | addingCredits (ctl : Nat)
  | waking
  | outPoll
  | outEvent (wcs : List Completion) (again : Bool)
  | reading
  | acking
  | postingAck (imm : Nat)
  deriving DecidableEq

structure Node where
  sendId : Nat
  uncompleteAckCnt : Int
  uncompleteReadCnt : Int
  postSendBlocker : Nat
  readCompleteNum : Nat
  /-- `_pending_block_cnt` of each message -/
  recvingMsgs : List Nat
  pendingReadWrs : Nat
  postSendBlockerCnt : Int
  getSendBufferBlocker : List Bool
  ackCnt : Int
  sender : Sender
  handler : Handler
  wire : List Packet
  /-- work requests that have not completed -/
  completing : List Completion
  sendCq : List Completion
  recvCq : List Packet
  deriving DecidableEq

namespace Node

/-- After `init`. Nothing sets `_ack_cnt`. -/
def initial (ackCnt : Int) : Node where
  sendId := 0
  uncompleteAckCnt := 0
  uncompleteReadCnt := 0
  postSendBlocker := 0
  readCompleteNum := 0
  recvingMsgs := []
  pendingReadWrs := 0
  postSendBlockerCnt := bnum
  getSendBufferBlocker := List.replicate bnum false
  ackCnt := ackCnt
  sender := .idle
  handler := .idle
  wire := []
  completing := []
  sendCq := []
  recvCq := []

def postSend (n : Node) (byteLen : Nat) (msgs : List Nat) : Option Node :=
  match n.sender with
  | .idle =>
    if n.getSendBufferBlocker[n.sendId]? ≠ some false ∨ bsize < byteLen then none
    else if byteLen = 0 then some n
    else some { n with
      getSendBufferBlocker := n.getSendBufferBlocker.set n.sendId true
      sender := .taking byteLen msgs }
  | _ => none

def send (n : Node) : Option Node :=
  match n.sender with
  | .idle => none
  | .taking byteLen msgs =>
    some { n with ackCnt := 0, sender := .counting ⟨byteLen, msgs, toUint32 n.ackCnt⟩ }
  | .counting p =>
    some { n with
      postSendBlockerCnt := n.postSendBlockerCnt - 1
      sender := if n.postSendBlockerCnt = 0 then .waiting p else .posting p }
  | .waiting p =>
    if n.postSendBlocker = 0 then none
    else some { n with postSendBlocker := n.postSendBlocker - 1, sender := .posting p }
  | .posting p =>
    some { n with
      wire := n.wire ++ [p]
      completing := n.completing ++ [.send n.sendId]
      sendId := (n.sendId + 1) % bnum
      sender := .idle }

def tryRecvMsgs (n : Node) (msgs : List Nat) : Node :=
  { n with
    recvingMsgs := n.recvingMsgs ++ msgs.filter (· ≠ 0)
    pendingReadWrs := n.pendingReadWrs + msgs.sum }

def recvBytes (n : Node) (wc : Packet) : Node := if 0 < wc.byteLen then n.tryRecvMsgs wc.msgs else n

def postedReads (uncomplete : Int) : Nat → Nat
  | 0 => 0
  | n + 1 => if uncomplete + 1 = bnum ∨ n = 0 then 1 else postedReads (uncomplete + 1) n + 1

def postRead (n : Node) : Node :=
  if n.pendingReadWrs = 0 ∨ n.uncompleteReadCnt = bnum then n
  else
    let reads := postedReads n.uncompleteReadCnt n.pendingReadWrs
    { n with
      uncompleteReadCnt := n.uncompleteReadCnt + reads
      pendingReadWrs := n.pendingReadWrs - reads
      completing := n.completing ++ List.replicate reads .read }

def readSucc (n : Node) : Option Node :=
  match n.recvingMsgs with
  | [] => none
  | blocks :: msgs =>
    if blocks - 1 = 0 then
      some { n with
        uncompleteReadCnt := n.uncompleteReadCnt - 1
        recvingMsgs := msgs
        readCompleteNum := n.readCompleteNum + 1 }
    else
      some { n with
        uncompleteReadCnt := n.uncompleteReadCnt - 1
        recvingMsgs := (blocks - 1) :: msgs }

def completed (n : Node) : Completion → Option Node
  | .read => n.readSucc
  | .ack => some { n with uncompleteAckCnt := n.uncompleteAckCnt - 1 }
  | .send id => some { n with getSendBufferBlocker := n.getSendBufferBlocker.set id false }

def SendsAck (n : Node) : Prop := n.uncompleteAckCnt < bnum / 2 + 1 ∧ toUint32 n.ackCnt ≠ 0

instance (n : Node) : Decidable n.SendsAck := inferInstanceAs (Decidable (_ ∧ _))

def sendAck (n : Node) : Node :=
  if n.uncompleteAckCnt ≥ bnum / 2 + 1 then { n with handler := .idle }
  else if toUint32 n.ackCnt = 0 then { n with ackCnt := 0, handler := .idle }
  else { n with
    ackCnt := 0
    readCompleteNum := 0
    handler := .postingAck (addReadCompleteNum (toUint32 n.ackCnt) n.readCompleteNum) }

def event (n : Node) (incoming : Bool) : Option Node :=
  match n.handler with
  | .idle => some { n with handler := if incoming then .inPoll 0 0 else .outPoll }
  | _ => none

def handle (n : Node) : Option Node :=
  match n.handler with
  | .idle => none
  | .inPoll ctl ack =>
    let wcs := n.recvCq.take (bnum * 4)
    some { n with
      recvCq := n.recvCq.drop (bnum * 4)
      handler := .inEvent wcs (decide (wcs.length = bnum * 4)) ctl ack }
  | .inEvent [] again ctl ack =>
    some { n with handler := if again then .inPoll ctl ack else .addingAcks ctl ack }
  | .inEvent (wc :: wcs) again ctl ack =>
    some { n.recvBytes wc with
      handler := .inEvent wcs again (ctl + ackNum wc.imm) (if 0 < wc.byteLen then addAckNum ack 1 else ack) }
  | .addingAcks ctl ack =>
    some { n with ackCnt := n.ackCnt + ack, handler := if 0 < ctl then .addingCredits ctl else .reading }
  | .addingCredits ctl =>
    some { n with
      postSendBlockerCnt := n.postSendBlockerCnt + ctl
      handler := if n.postSendBlockerCnt = -1 then .waking else .reading }
  | .waking => some { n with postSendBlocker := n.postSendBlocker + 1, handler := .reading }
  | .outPoll =>
    let wcs := n.sendCq.take (bnum * 4)
    some { n with
      sendCq := n.sendCq.drop (bnum * 4)
      handler := .outEvent wcs (decide (wcs.length = bnum * 4)) }
  | .outEvent [] again => some { n with handler := if again then .outPoll else .reading }
  | .outEvent (c :: wcs) again => (n.completed c).map fun n => { n with handler := .outEvent wcs again }
  | .reading => some { n.postRead with handler := .acking }
  | .acking => some n.sendAck
  | .postingAck imm =>
    some { n with
      wire := n.wire ++ [⟨0, [], imm⟩]
      completing := n.completing ++ [.ack]
      uncompleteAckCnt := n.uncompleteAckCnt + 1
      handler := .idle }

def complete (n : Node) (i : Nat) : Option Node :=
  n.completing[i]?.map fun c => { n with completing := n.completing.eraseIdx i, sendCq := n.sendCq ++ [c] }

end Node

/-- The two sides; the peer of `x` is `!x`. -/
abbrev World := Bool → Node

inductive Action
  | postSend (byteLen : Nat) (msgs : List Nat)
  | send
  | event (incoming : Bool)
  | handle
  | complete (i : Nat)
  | deliver
  deriving DecidableEq

def Node.act (n : Node) : Action → Option Node
  | .postSend byteLen msgs => n.postSend byteLen msgs
  | .send => n.send
  | .event incoming => n.event incoming
  | .handle => n.handle
  | .complete i => n.complete i
  | .deliver => none

def arrive (w : World) (x : Bool) : Option World :=
  match (w x).wire with
  | [] => none
  | p :: wire =>
    some (Function.update (Function.update w x { w x with wire := wire }) (!x)
      { w (!x) with recvCq := (w (!x)).recvCq ++ [p] })

def act (w : World) (x : Bool) : Action → Option World
  | .deliver => arrive w x
  | a => ((w x).act a).map (Function.update w x)

def connected (ackCnt : Bool → Int) : World := fun x => .initial (ackCnt x)

inductive Step : World → World → Prop
  | act {w w' : World} (x : Bool) (a : Action) (done : act w x a = some w') : Step w w'

abbrev RdmaReachable : World → Prop := Reachable (fun w => ∃ ackCnt, w = connected ackCnt) Step

end Prpc.Rdma
