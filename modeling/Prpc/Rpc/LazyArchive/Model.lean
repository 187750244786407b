import Prpc.Rpc.Archive.RoundTrip

/-!
Values are kept as they are and read back in the process, or serialized by `apply` into a meta
archive and any number of shared blocks. The meta archive itself is the last block.
-/

namespace Prpc.Archive
open Lib

/-- A `data_block_t`: the memory at `data`, of which `length` bytes belong to the block. -/
structure DataBlock where
  data : List Byte
  length : Nat
  deriving DecidableEq

def DataBlock.content (b : DataBlock) : List Byte := b.data.take b.length

def DataBlock.moved : DataBlock := ⟨[], 0⟩

def DataBlock.copy (b : DataBlock) : DataBlock := ⟨b.content, b.length⟩

/-- `put_shared_uncheck` stores the length in a `uint32_t`. -/
def putSharedUncheck (bytes : List Byte) : DataBlock := ⟨bytes, bytes.length % 2 ^ 32⟩

abbrev Input := List Byte × List DataBlock

def getSharedUncheck (sizeof : Nat) : Reader Input (Nat × List Byte) := fun s =>
  match s.2 with
  | [] => none
  | block :: rest =>
    let size := block.length / sizeof
    if block.length = size * sizeof then some ((size, block.content), (s.1, rest)) else none

def fromMeta {α : Type} (read : Reader (List Byte) α) : Reader Input α := fun s =>
  (read s.1).map fun r => (r.1, (r.2, s.2))

structure BinaryType where
  carrier : Carrier
  serializer : Serializer carrier
  roundTrips : RoundTrips serializer
  sizeof_pos : ∀ rep, carrier.rep = some rep → 0 < rep.size

def Ty.binaryType (t : Ty) (pos : ∀ rep, t.carrier.rep = some rep → 0 < rep.size) : BinaryType :=
  ⟨t.carrier, t.serializer .binary, t.roundTrips .binary, pos⟩

structure LazySerializer (k : Carrier) where
  picoSerialize : k.Obj → List Byte × List DataBlock
  picoDeserialize : k.Val → Reader Input k.Val

namespace Carrier

abbrev block : Carrier where
  Obj := {b : DataBlock // b.data.length = b.length ∧ b.length < 2 ^ 32}
  Val := List Byte
  decEq := inferInstance
  init := []
  val b := b.1.content
  rep := none

/-- Here an archive stands for what is left to read in it. -/
abbrev unread : Carrier where
  Obj := {m : Memory // m.position ≤ m.bytes.length ∧ m.bytes.length < 2 ^ 64}
  Val := Memory
  decEq := inferInstance
  init := ⟨[], 0⟩
  val x := ⟨x.1.bytes.drop x.1.position, 0⟩
  rep := none

end Carrier

namespace Lazy

def binary (b : BinaryType) : LazySerializer b.carrier where
  picoSerialize x := (b.serializer.picoSerialize x, [])
  picoDeserialize y := fromMeta (b.serializer.picoDeserialize y)

def block : LazySerializer .block where
  picoSerialize b := ([], [putSharedUncheck b.1.content])
  picoDeserialize _ := do
    let data ← getSharedUncheck 1
    return data.2

def archive : LazySerializer .unread where
  picoSerialize x := ([], [putSharedUncheck (x.1.bytes.drop x.1.position)])
  picoDeserialize _ := do
    let data ← getSharedUncheck 1
    return ⟨data.2, 0⟩

section
variable {k v : Carrier}

def both (a b : List Byte × List DataBlock) : List Byte × List DataBlock := (a.1 ++ b.1, a.2 ++ b.2)

def eachOf {α : Type} (write : α → List Byte × List DataBlock) (xs : List α) : List Byte × List DataBlock :=
  (xs.flatMap fun x => (write x).1, xs.flatMap fun x => (write x).2)

def vector (c : LazySerializer k) : LazySerializer (.list k) :=
  match k.rep with
  | some rep =>
    { picoSerialize := fun x => ([], [putSharedUncheck (Carrier.arrayBytes rep x.1)])
      picoDeserialize := fun _ => do
        let data ← getSharedUncheck rep.size
        return Carrier.readArray rep data.1 data.2 }
  | none =>
    { picoSerialize := fun x =>
        both (writeSize .binary x.1.length, []) (eachOf c.picoSerialize x.1)
      picoDeserialize := fun y => do
        let size ← fromMeta (readSize .binary)
        let l ← readEach c.picoDeserialize (resized y size)
        return l.1 }

def map (b : BinaryType) (c : LazySerializer v) : LazySerializer (.map b.carrier v) where
  picoSerialize x :=
    both (writeSize .binary x.1.length, [])
      (eachOf (fun i => both (b.serializer.picoSerialize i.1, []) (c.picoSerialize i.2)) x.1)
  picoDeserialize _ := do
    let size ← fromMeta (readSize .binary)
    readInto (do
      let key ← fromMeta (b.serializer.picoDeserialize b.carrier.init)
      let value ← c.picoDeserialize v.init
      return (key, value)) insertItem size (∅ : Finmap fun _ => v.Val)

def pair (c : LazySerializer k) (d : LazySerializer v) : LazySerializer (.pair k v) where
  picoSerialize x := both (c.picoSerialize x.1) (d.picoSerialize x.2)
  picoDeserialize y := do
    let first ← c.picoDeserialize y.1
    let second ← d.picoDeserialize y.2
    return (first, second)

end

end Lazy

/-- The types of a lazy archive over the binary types `T`. Where an overload of its own exists for
a type, as for vectors, maps, pairs and archives, `binary` is not chosen. -/
inductive LazyType (T : Type) where
  | binary (t : T)
  | block
  | archive
  | vector (t : LazyType T)
  | map (k : T) (v : LazyType T)
  | pair (a b : LazyType T)
  deriving DecidableEq

section
variable {T : Type} (bin : T → BinaryType)

def LazyType.carrier : LazyType T → Carrier
  | .binary t => (bin t).carrier
  | .block => .block
  | .archive => .unread
  | .vector t => .list t.carrier
  | .map k v => .map (bin k).carrier v.carrier
  | .pair a b => .pair a.carrier b.carrier

def LazyType.serializer : (t : LazyType T) → LazySerializer (t.carrier bin)
  | .binary t => Lazy.binary (bin t)
  | .block => Lazy.block
  | .archive => Lazy.archive
  | .vector t => Lazy.vector t.serializer
  | .map k v => Lazy.map (bin k) v.serializer
  | .pair a b => Lazy.pair a.serializer b.serializer

abbrev Item := (t : LazyType T) × (t.carrier bin).Obj

abbrev Target := (t : LazyType T) × (t.carrier bin).Val

structure LazyArchive where
  ar : List Byte := []
  data : List DataBlock := []
  pos : Nat := 0
  lazy : List (Item bin) := []
  cur : Nat := 0

end

namespace LazyArchive
variable {T : Type} {bin : T → BinaryType}

def put (a : LazyArchive bin) (value : Item bin) : LazyArchive bin := { a with lazy := a.lazy ++ [value] }

def moveOn (a : LazyArchive bin) (rest : Input) : LazyArchive bin :=
  let used := (a.data.drop a.pos).length - rest.2.length
  { a with
    ar := rest.1
    data := a.data.take a.pos ++ List.replicate used .moved ++ rest.2
    pos := a.pos + used }

/-- `operator>>`: while nothing is attached, the next value that was put in and not yet read. -/
def get [DecidableEq T] (a : LazyArchive bin) (target : Target bin) : Option (Target bin × LazyArchive bin) :=
  if a.ar = [] ∧ a.pos = a.data.length then
    match a.lazy[a.cur]? with
    | none => none
    | some ⟨t, x⟩ =>
      if t = target.1 then some (⟨t, (t.carrier bin).val x⟩, { a with cur := a.cur + 1 }) else none
  else
    match (target.1.serializer bin).picoDeserialize target.2 (a.ar, a.data.drop a.pos) with
    | none => none
    | some (x, rest) => some (⟨target.1, x⟩, a.moveOn rest)

def getAll [DecidableEq T] : LazyArchive bin → List (Target bin) →
    Option (List (Target bin) × LazyArchive bin)
  | a, [] => some ([], a)
  | a, target :: targets => do
    let (x, a) ← a.get target
    let (xs, a) ← a.getAll targets
    return (x :: xs, a)

def attach (a : LazyArchive bin) (data : List DataBlock) : LazyArchive bin where
  ar := match data.getLast? with
    | some block => block.content
    | none => a.ar
  data := data
  pos := 0
  lazy := []
  cur := 0

def serialized (a : LazyArchive bin) : List Byte × List DataBlock :=
  Lazy.eachOf (fun i => (i.1.serializer bin).picoSerialize i.2) (a.lazy.drop a.cur)

def apply (a : LazyArchive bin) : List DataBlock × LazyArchive bin :=
  if a.lazy = [] then
    (a.data, { a with data := [] })
  else
    (a.data ++ a.serialized.2 ++ [putSharedUncheck a.serialized.1],
      { a with data := [], cur := a.lazy.length })

end LazyArchive

end Prpc.Archive
