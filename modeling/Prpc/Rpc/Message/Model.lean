import Prpc.Rpc.LazyArchive.Agreement

/-!
An `RpcMessage` is a frame in memory (head and body) and the data blocks beside it. `RpcRequest` and
`RpcResponse` hold the same parts as objects, and keep the message they were made from if they were
received.
-/

namespace Prpc.Message
open Lib Prpc.Archive

structure RpcHead where
  bodySize : BitVec 64 := 0
  srcRank : BitVec 16 := -1
  destRank : BitVec 16 := -1
  srcDealer : BitVec 32 := -1
  destDealer : BitVec 32 := -1
  rpcId : BitVec 32 := -1
  sid : BitVec 32 := -1
  extraBlockCount : BitVec 32 := 0
  extraBlockLength : BitVec 32 := 0
  errorCode : BitVec 16 := 0
  deriving DecidableEq

def headSize : Nat := 40

def blockSize : Nat := 16

def minZeroCopySize : Nat := 4 * 1024

structure RpcMessage where
  head : RpcHead
  body : List Byte
  data : List DataBlock
  deriving DecidableEq

inductive Segment where
  | frame (bodySize : Nat)
  | table (count : Nat)
  | block (b : DataBlock)
  deriving DecidableEq

def Segment.size : Segment → Nat
  | .frame bodySize => headSize + bodySize
  | .table count => blockSize * count
  | .block b => b.length

def byteCursor (m : RpcMessage) (zeroCopy : Bool) : List Segment :=
  (if zeroCopy then []
    else .frame m.head.bodySize.toNat :: if m.data ≠ [] then [.table m.data.length] else []) ++
  (m.data.filter fun b =>
    if zeroCopy then decide (minZeroCopySize ≤ b.length)
    else decide (b.length < minZeroCopySize ∧ 0 < b.length)).map .block

def extraSize (m : RpcMessage) : Nat := ((byteCursor m false).tail.map Segment.size).sum

section
variable {T : Type} (bin : T → BinaryType)

structure Packet where
  head : RpcHead := {}
  /-- Whether the first `sizeof(rpc_head_t)` bytes of `_ar` were left free for the head. -/
  room : Bool
  ar : List Byte := []
  cursor : Nat := 0
  lazy : LazyArchive bin := {}
  msg : Option RpcMessage := none

end

variable {T : Type} {bin : T → BinaryType}

/-- `RpcMessage::initialize`; without `sizeof(rpc_head_t)` bytes the head is written past the end. -/
def messageInitialize (head : RpcHead) (buffer : List Byte) (lazy : LazyArchive bin) : Option RpcMessage :=
  let data := lazy.apply.1
  let small := data.filter fun b => decide (b.length < minZeroCopySize)
  if buffer.length < headSize then
    none
  else
    some
      { head :=
          { head with
            extraBlockCount := BitVec.ofNat 32 data.length
            extraBlockLength := small.foldl (fun length b => length + BitVec.ofNat 32 b.length)
              (BitVec.ofNat 32 (blockSize * data.length))
            bodySize := BitVec.ofNat 64 (buffer.length - headSize) }
        body := buffer.drop headSize
        data }

namespace Packet

def buffer (p : Packet bin) : List Byte := (if p.room then List.replicate headSize 0 else []) ++ p.ar

def toMessage (p : Packet bin) : Option RpcMessage :=
  match p.msg with
  | some m => some m
  | none => messageInitialize p.head p.buffer p.lazy

/-- `RpcMessage::finalize`, which moves the blocks out, and the constructors that keep the rest. -/
def ofMessage (m : RpcMessage) : Packet bin where
  head := m.head
  room := true
  ar := m.body
  lazy := LazyArchive.attach {} m.data
  msg := some { m with data := [] }

def request : Packet bin := { room := true }

def requestTo (destRank : BitVec 16) : Packet bin := { head := { destRank, destDealer := -1 }, room := true }

/-- `RpcResponse()` leaves no room for the head. -/
def response : Packet bin := { room := false }

def responseTo (req : RpcHead) : Packet bin where
  head :=
    { destRank := req.srcRank
      destDealer := req.srcDealer
      srcRank := req.destRank
      sid := req.sid
      rpcId := req.rpcId }
  room := true

def editHead (p : Packet bin) (f : RpcHead → RpcHead) : Packet bin := { p with head := f p.head }

def setSid (p : Packet bin) (sid : BitVec 32) : Packet bin := p.editHead fun head => { head with sid }

def setErrorCode (p : Packet bin) (errorCode : BitVec 16) : Packet bin :=
  p.editHead fun head => { head with errorCode }

def write (p : Packet bin) (bytes : List Byte) : Packet bin := { p with ar := p.ar ++ bytes }

def read (p : Packet bin) (n : Nat) : Packet bin := { p with cursor := p.cursor + n }

def putLazy (p : Packet bin) (value : Item bin) : Packet bin := { p with lazy := p.lazy.put value }

def getLazy [DecidableEq T] (p : Packet bin) (target : Target bin) : Option (Packet bin) := do
  let (_, lazy) ← p.lazy.get target
  return { p with lazy }

end Packet

end Prpc.Message
