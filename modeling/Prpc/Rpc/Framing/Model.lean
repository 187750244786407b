import Prpc.Lib.Spans
import Prpc.Lib.Transition
import Prpc.Rpc.Tcp.Wire

/-!
`try_recv_msgs` on the memory of the process. All pointers are words of 64 bits, and the peer may send
anything. The allocator places a buffer anywhere; where it has no memory, nothing happens any more, as
where `memcpy` would be given more than its destination can hold.
-/

namespace Prpc.Framing
open Lib Prpc.Archive Message Tcp

abbrev Mem := Nat → Byte

def window (mem : Mem) (a n : Nat) : List Byte := (List.range n).map fun i => mem (address a i)

def overwrite (mem : Mem) (a : Nat) (bytes : List Byte) : Mem := fun b =>
  if a ≤ b then (bytes[b - a]?).getD (mem b) else mem b

def headAt (mem : Mem) (start : Nat) : RpcHead := readHead (window mem start headSize)

def lazyMeta (mem : Mem) (start : Nat) : Nat := address start (headSize + (headAt mem start).bodySize.toNat)

def extra (mem : Mem) (start : Nat) : Nat :=
  address start (headSize + (headAt mem start).bodySize.toNat +
    (headAt mem start).extraBlockCount.toNat * blockSize)

def entryLength (mem : Mem) (entry : Nat) : Nat := leNat (window mem (address entry 8) 4)

/-- What the constructor makes, and the spans of memory that it reads for it. -/
structure Construction where
  data : List DataBlock
  reads : List (Nat × Nat)

def receiveBlocks (mem : Mem) : Nat → Nat → Nat → Construction
  | 0, _, _ => ⟨[], []⟩
  | n + 1, entry, cur =>
    let len := entryLength mem entry
    if len < minZeroCopySize then
      let rest := receiveBlocks mem n (address entry blockSize) (address cur len)
      { data := ⟨window mem cur len, len⟩ :: rest.data, reads := (entry, blockSize) :: (cur, len) :: rest.reads }
    else
      let rest := receiveBlocks mem n (address entry blockSize) cur
      { data := ⟨List.replicate len 0, len⟩ :: rest.data, reads := (entry, blockSize) :: rest.reads }

def receive (mem : Mem) (start : Nat) : Construction :=
  receiveBlocks mem (headAt mem start).extraBlockCount.toNat (lazyMeta mem start) (extra mem start)

structure RecvBuffer where
  ptr : Nat
  size : Nat
  cursor : Nat
  msgCursor : Nat
  deriving DecidableEq

namespace RecvBuffer

def end_ (b : RecvBuffer) : Nat := address b.ptr b.size

def minus (a b : Nat) : Nat := (a + wordSpace - b) % wordSpace

def availableSize (b : RecvBuffer) : Nat := minus b.end_ b.cursor

def pending (b : RecvBuffer) : Nat := minus b.cursor b.msgCursor

end RecvBuffer

structure Delivered where
  start : Nat
  data : List DataBlock

structure State where
  mem : Mem
  buffer : RecvBuffer
  parsing : Bool
  delivered : List Delivered

def initial (mem : Mem) : State := ⟨mem, ⟨0, 0, 0, 0⟩, false, []⟩

def recvSize : Nat := 256 * 1024

namespace State

def limit : Nat := 2 ^ 47

def move (s : State) (size fresh : Nat) : Option State :=
  if fresh + size ≤ limit ∧ s.buffer.pending ≤ size then
    some { s with
      mem := overwrite s.mem fresh (window s.mem s.buffer.msgCursor s.buffer.pending)
      buffer := ⟨fresh, size, address fresh s.buffer.pending, fresh⟩ }
  else none

def moveIf (s : State) (full : Prop) [Decidable full] (size fresh : Nat) : Option State :=
  if full then s.move size fresh else some s

def put (s : State) (bytes : List Byte) : State :=
  { s with
    mem := overwrite s.mem s.buffer.cursor bytes
    buffer := { s.buffer with cursor := address s.buffer.cursor bytes.length }
    parsing := true }

def recv (s : State) (bytes : List Byte) (fresh : Nat) : Option State :=
  if s.parsing then none
  else (s.moveIf (s.buffer.availableSize = 0) recvSize fresh).bind fun s =>
    if 0 < bytes.length ∧ bytes.length ≤ s.buffer.availableSize then some (s.put bytes) else none

def head (s : State) : RpcHead := headAt s.mem s.buffer.msgCursor

def expectedMsgEnd (s : State) : Nat := address s.buffer.msgCursor (msgSize s.head)

def HeadReceived (s : State) : Prop := address s.buffer.msgCursor headSize ≤ s.buffer.cursor

instance (s : State) : Decidable s.HeadReceived := inferInstanceAs (Decidable (_ ≤ _))

/-- There is a whole message, and the next pass delivers it. -/
def Delivers (s : State) : Prop := s.HeadReceived ∧ s.expectedMsgEnd ≤ s.buffer.cursor

instance (s : State) : Decidable s.Delivers := inferInstanceAs (Decidable (_ ∧ _))

def deliver (s : State) : State :=
  { s with
    delivered := s.delivered ++ [⟨s.buffer.msgCursor, (receive s.mem s.buffer.msgCursor).data⟩]
    buffer := { s.buffer with msgCursor := s.expectedMsgEnd } }

def leave (s : State) : State := { s with parsing := false }

def pass (s : State) (fresh : Nat) : Option State :=
  if s.parsing then
    if s.Delivers then some s.deliver
    else if s.HeadReceived then
      (s.moveIf (s.expectedMsgEnd > s.buffer.end_) (max (msgSize s.head) recvSize) fresh).map leave
    else
      (s.moveIf (address s.buffer.msgCursor headSize > s.buffer.end_) recvSize fresh).map leave
  else none

end State

inductive Action
  | recv (bytes : List Byte) (fresh : Nat)
  | pass (fresh : Nat)

def act (s : State) : Action → Option State
  | .recv bytes fresh => s.recv bytes fresh
  | .pass fresh => s.pass fresh

inductive Step : State → State → Prop
  | act {s s' : State} (a : Action) (done : act s a = some s') : Step s s'

abbrev FramingReachable : State → Prop := Reachable (fun s => ∃ mem, s = initial mem) Step

end Prpc.Framing
