import Prpc.Lib.Codec
import Prpc.Rpc.Archive.Types

/-!
The overloads for `Archive<BinaryArchiveType>` and `Archive<TextArchiveType>`. Serializing appends at
`_end`, so it is given by the bytes it adds. Deserializing works on the bytes from `_cursor` to
`_end` and on the target's previous contents; `none` is a failed check or a `false` result.
-/

namespace Prpc.Archive
open Lib

inductive ArchiveType where
  | binary | text
  deriving DecidableEq

structure Serializer (k : Carrier) where
  picoSerialize : k.Obj → List Byte
  picoDeserialize : k.Val → Reader (List Byte) k.Val

def writePod {Obj Val : Type} {val : Obj → Val} (rep : Representation val) : Obj → List Byte := rep.bytes

def readPod {Obj Val : Type} {val : Obj → Val} (rep : Representation val) : Reader (List Byte) Val := do
  let bytes ← readRaw rep.size
  return rep.read bytes

def byteChar (b : Byte) : Char := Char.ofNat b.toNat

def charByte (c : Char) : Byte := UInt8.ofNat c.toNat

def blank : Byte := 32

def intOf (signed : Bool) {n : Nat} (x : BitVec n) : Int := if signed then x.toInt else x.toNat

def writeArithmetic : (a : Arithmetic) → a.Val → List Byte
  | .int signed _, x => (toText (intOf signed x)).map charByte ++ [blank]
  | .bool, b => (toText (if b then 1 else 0)).map charByte ++ [blank]
  | .char, c => [c]

def readToken {α : Type} (cast : List Char → Nat → Option α) : Reader (List Byte) α := fun unread =>
  let start := unread.dropWhile (· == blank)
  let count := (start.takeWhile (· != blank)).length
  match start.dropWhile (· != blank) with
  | [] => none
  | _ :: rest => if count = 0 then none else (cast (start.map byteChar) count).map (·, rest)

def readInt (signed : Bool) (width : Width) : Reader (List Byte) Int :=
  readToken fun s count => (picoLexicalCast signed width s count).toOption

/-- `Archive<TextArchiveType>::read_arithmetic`; the 8-bit types are read as 32-bit ones. -/
def readArithmetic : (a : Arithmetic) → Reader (List Byte) a.Val
  | .int signed width => do
    let x ← readInt signed (if width = .w8 then .w32 else width)
    return BitVec.ofInt width.bits x
  | .bool => readToken picoLexicalCastBool
  | .char => do
    let c ← readRaw 1
    return c.headD 0

def arithmetic (ar : ArchiveType) (a : Arithmetic) : Serializer a.carrier :=
  match ar with
  | .binary => ⟨writePod a.rep, fun _ => readPod a.rep⟩
  | .text => ⟨writeArithmetic a, fun _ => readArithmetic a⟩

section
variable (ar : ArchiveType)

def writeSize (n : Nat) : List Byte := (arithmetic ar (.int false .w64)).picoSerialize (BitVec.ofNat 64 n)

def readSize : Reader (List Byte) Nat := do
  let n ← (arithmetic ar (.int false .w64)).picoDeserialize 0#64
  return BitVec.toNat (w := 64) n

def enum (signed : Bool) (width : Width) : Serializer (.enum signed width) where
  picoSerialize x := (arithmetic ar (.int true .w32)).picoSerialize
    (if signed then x.1.signExtend 32 else x.1.setWidth 32)
  picoDeserialize _ := do
    let n ← (arithmetic ar (.int true .w32)).picoDeserialize 0#32
    return BitVec.signExtend (w := 32) width.bits n

def archive : Serializer .archive where
  picoSerialize x := writeSize ar x.1.bytes.length ++ x.1.bytes
  picoDeserialize _ := do
    let size ← readSize ar
    let bytes ← readRaw size
    return ⟨bytes, 0⟩

/-- A text string is closed by a blank, so that a number may follow. -/
def string : Serializer (.list (Arithmetic.carrier .char)) :=
  match ar with
  | .binary =>
    { picoSerialize := fun x => writeSize .binary x.1.length ++ x.1
      picoDeserialize := fun _ => do
        let size ← readSize .binary
        readRaw size }
  | .text =>
    { picoSerialize := fun x =>
        writeSize .text x.1.length ++ (x.1 ++ writeArithmetic .char blank)
      picoDeserialize := fun _ => do
        let size ← readSize .text
        let str ← readRaw size
        let _ ← readArithmetic .char
        return str }

variable {k v : Carrier}

def resized (y : List k.Val) (size : Nat) : List k.Val :=
  y.take size ++ List.replicate (size - y.length) k.init

def sequence (c : Serializer k) : Serializer (.list k) where
  picoSerialize x := writeSize ar x.1.length ++ x.1.flatMap c.picoSerialize
  picoDeserialize y := do
    let size ← readSize ar
    let l ← readEach c.picoDeserialize (resized y size)
    return l.1

def vectorRaw (rep : Representation k.val) : Serializer (.list k) where
  picoSerialize x := writeSize ar x.1.length ++ Carrier.arrayBytes rep x.1
  picoDeserialize _ := do
    let size ← readSize ar
    let bytes ← readRaw (rep.size * size)
    return Carrier.readArray rep size bytes

def vector (c : Serializer k) : Serializer (.list k) :=
  match ar, k.rep with
  | .binary, some rep => vectorRaw ar rep
  | _, _ => sequence ar c

def deque (c : Serializer k) : Serializer (.list k) := sequence ar c

def valarray (c : Serializer k) : Serializer (.list k) where
  picoSerialize x := writeSize ar x.1.length ++ x.1.flatMap c.picoSerialize
  picoDeserialize _ := do
    let size ← readSize ar
    let l ← readEach c.picoDeserialize (List.replicate size k.init)
    return l.1

def elements (c : Serializer k) (n : Nat) : Serializer (.array k n) :=
  match ar, k.rep with
  | .binary, some rep =>
    { picoSerialize := fun x => Carrier.arrayBytes rep x.1
      picoDeserialize := fun _ => do
        let bytes ← readRaw (rep.size * n)
        return ⟨Carrier.readArray rep n bytes, Carrier.readArray_length rep n bytes⟩ }
  | _, _ =>
    { picoSerialize := fun x => x.1.flatMap c.picoSerialize
      picoDeserialize := fun y => do
        let l ← readEach c.picoDeserialize y.1
        return ⟨l.1, l.2.trans y.2⟩ }

def array (c : Serializer k) (n : Nat) : Serializer (.array k n) := elements ar c n

def cArray (c : Serializer k) (n : Nat) : Serializer (.array k n) where
  picoSerialize x := writeSize ar n ++ (elements ar c n).picoSerialize x
  picoDeserialize y := do
    let size ← readSize ar
    if size ≠ n then failure
    (elements ar c n).picoDeserialize y

def packBits : List Bool → BitVec 64 → Nat → List Byte
  | [], bits, offset => if 0 < offset then writePod (wordRep .w64) bits else []
  | val :: vect, bits, offset =>
    if offset = 64 then
      writePod (wordRep .w64) bits ++ packBits vect (if val then 1#64 <<< 0 else 0#64) 1
    else
      packBits vect (if val then bits ||| 1#64 <<< offset else bits) (offset + 1)

def unpackBits : Nat → BitVec 64 → Nat → Reader (List Byte) (List Bool)
  | 0, _, _ => pure []
  | n + 1, bits, offset => do
    let bits : BitVec 64 ← (if offset = 64 then readPod (wordRep .w64) else pure bits)
    let offset := if offset = 64 then 0 else offset
    let vect ← unpackBits n bits (offset + 1)
    return (bits &&& 1#64 <<< offset != 0#64) :: vect

def vectorBool : Serializer (.list (Arithmetic.carrier .bool)) :=
  match ar with
  | .binary =>
    { picoSerialize := fun x => writeSize ar x.1.length ++ packBits x.1 0#64 0
      picoDeserialize := fun _ => do
        let size ← readSize ar
        unpackBits size 0#64 64 }
  | .text =>
    { picoSerialize := fun x =>
        writeSize ar x.1.length ++ x.1.flatMap (arithmetic ar .bool).picoSerialize
      picoDeserialize := fun _ => do
        let size ← readSize ar
        let l ← readEach (fun _ => (arithmetic ar .bool).picoDeserialize false)
          (List.replicate size false)
        return l.1 }

/-! ## Sets and maps

`clear` and then one `insert` per item, which must be new. -/

def insertKey (s : Finset k.Val) (a : k.Val) : Option (Finset k.Val) :=
  if a ∈ s then none else some (insert a s)

def insertItem (m : Finmap fun _ : k.Val => v.Val) (i : k.Val × v.Val) :
    Option (Finmap fun _ : k.Val => v.Val) :=
  if i.1 ∈ m then none else some (m.insert i.1 i.2)

def keys (c : Serializer k) : Serializer (.set k) where
  picoSerialize x := writeSize ar x.1.length ++ x.1.flatMap c.picoSerialize
  picoDeserialize _ := do
    let size ← readSize ar
    readInto (c.picoDeserialize k.init) insertKey size (∅ : Finset k.Val)

def items (c : Serializer k) (d : Serializer v) : Serializer (.map k v) where
  picoSerialize x := writeSize ar x.1.length ++
    x.1.flatMap fun i => c.picoSerialize i.1 ++ d.picoSerialize i.2
  picoDeserialize _ := do
    let size ← readSize ar
    readInto (do
      let key ← c.picoDeserialize k.init
      let value ← d.picoDeserialize v.init
      return (key, value)) insertItem size (∅ : Finmap fun _ => v.Val)

def set (c : Serializer k) : Serializer (.set k) := keys ar c
def unorderedSet (c : Serializer k) : Serializer (.set k) := keys ar c
def map (c : Serializer k) (d : Serializer v) : Serializer (.map k v) := items ar c d
def unorderedMap (c : Serializer k) (d : Serializer v) : Serializer (.map k v) := items ar c d
def hashTable (c : Serializer k) (d : Serializer v) : Serializer (.map k v) := items ar c d

end

section
variable {k v : Carrier}

def pair (c : Serializer k) (d : Serializer v) : Serializer (.pair k v) where
  picoSerialize x := c.picoSerialize x.1 ++ d.picoSerialize x.2
  picoDeserialize y := do
    let first ← c.picoDeserialize y.1
    let second ← d.picoDeserialize y.2
    return (first, second)

def structEnd (tail : Nat) : Serializer (.structEnd tail) where
  picoSerialize _ := []
  picoDeserialize _ := return ()

def field (pad : Nat) (c : Serializer k) (d : Serializer v) : Serializer (.field pad k v) where
  picoSerialize x := c.picoSerialize x.2.1 ++ d.picoSerialize x.2.2
  picoDeserialize y := do
    let member ← c.picoDeserialize y.1
    let others ← d.picoDeserialize y.2
    return (member, others)

end

section
variable (ar : ArchiveType)

mutual

def Ty.serializer : (t : Ty) → Serializer t.carrier
  | .arithmetic a => arithmetic ar a
  | .enum signed width => enum ar signed width
  | .string => string ar
  | .vector t => vector ar t.serializer
  | .vectorBool => vectorBool ar
  | .array t n => array ar t.serializer n
  | .cArray t n => cArray ar t.serializer n
  | .deque t => deque ar t.serializer
  | .valarray t => valarray ar t.serializer
  | .map k v => map ar k.serializer v.serializer
  | .unorderedMap k v => unorderedMap ar k.serializer v.serializer
  | .hashTable k v => hashTable ar k.serializer v.serializer
  | .set k => set ar k.serializer
  | .unorderedSet k => unorderedSet ar k.serializer
  | .pair a b => pair a.serializer b.serializer
  | .tuple ts => ts.serializer
  | .archive => archive ar
  | .struct fields => fields.serializer

def Tys.serializer : (ts : Tys) → Serializer ts.carrier
  | .nil => structEnd 1
  | .cons t ts => pair t.serializer ts.serializer

def Fields.serializer : (fields : Fields) → Serializer fields.carrier
  | .nil tail => structEnd tail
  | .cons pad t fields => field pad t.serializer fields.serializer

end

def writeAll (xs : List ((t : Ty) × t.carrier.Obj)) : List Byte :=
  xs.flatMap fun x => (x.1.serializer ar).picoSerialize x.2

def readAll : List ((t : Ty) × t.carrier.Val) → Reader (List Byte) (List ((t : Ty) × t.carrier.Val))
  | [] => return []
  | y :: ys => do
    let x ← (y.1.serializer ar).picoDeserialize y.2
    let xs ← readAll ys
    return ⟨y.1, x⟩ :: xs

end

end Prpc.Archive
