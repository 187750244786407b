import Prpc.Lib.Chaining
import Prpc.Lib.Transition

/-!
`HashTable` of `HashTable.h`. A bucket is the list of the entries that its pointer leads to; a bucket
array is a list of slots, and a slot of a `new Entry*[n]` holds `none` until it is written. An
operation is `none` where the code fails a check or reads or writes outside what it has.
-/

namespace Prpc.HashTable
open Lib

structure Entry (K V : Type) where
  key : K
  value : V
  hashCode : Nat
  deriving DecidableEq

abbrev Chain (K V : Type) := List (Entry K V)
abbrev Buckets (K V : Type) := List (Option (Chain K V))

/-- The parameters of the template. `exceeds size ml count` is the comparison
`size > ml * count` in the arithmetic of `float`, and `F` is the type of its numbers. -/
structure Params (K V F : Type) where
  hash : K → Nat
  exceeds : Nat → F → Nat → Bool
  maxLoadFactor : F
  value : V

structure Table (K V F : Type) where
  size : Nat
  mask : Nat
  bucketCount : Nat
  bucketCapacity : Nat
  newBegin : Nat
  maxLoadFactor : F
  newBuckets : Buckets K V
  oldBuckets : Buckets K V

section
variable {K V F : Type}

def Buckets.read (buckets : Buckets K V) (i : Nat) : Option (Chain K V) := buckets[i]?.join

def Buckets.write (buckets : Buckets K V) (i : Nat) (chain : Chain K V) : Option (Buckets K V) :=
  if i < buckets.length then some (buckets.set i (some chain)) else none

def construct (P : Params K V F) (capacity : Nat) : Option (Table K V F) := do
  let newBuckets ← Buckets.write (List.replicate capacity none) 0 []
  return ⟨0, 0, 1, capacity, 0, P.maxLoadFactor, newBuckets, []⟩

def newEntry (P : Params K V F) (key : K) (value : V) : Entry K V := ⟨key, value, P.hash key⟩

def Entry.found [DecidableEq K] (hashCode : Nat) (key : K) (e : Entry K V) : Bool :=
  e.hashCode = hashCode && e.key = key

namespace Table

def hashToBucket (t : Table K V F) (hashCode : Nat) : Nat :=
  let i := hashCode &&& t.mask
  if i < t.bucketCount then i else hashCode &&& (t.mask >>> 1)

def bucket (t : Table K V F) (i : Nat) : Option (Chain K V) :=
  if i < t.newBegin then t.oldBuckets.read i else t.newBuckets.read i

def setBucket (t : Table K V F) (i : Nat) (chain : Chain K V) : Option (Table K V F) :=
  if i < t.newBegin then do
    return { t with oldBuckets := ← t.oldBuckets.write i chain }
  else do
    return { t with newBuckets := ← t.newBuckets.write i chain }

def reserve (t : Table K V F) (size : Nat) : Option (Table K V F) :=
  if size ≤ t.bucketCapacity then some t
  else if t.newBegin = 0 then
    some { t with
      newBuckets := List.replicate size none
      oldBuckets := t.newBuckets
      newBegin := t.bucketCount
      bucketCapacity := size }
  else none

/-- The loop of `add_bucket`: what stays in the source bucket and what goes to bucket `toI`. -/
def splitChain (mask toI : Nat) : Chain K V → Chain K V × Chain K V
  | [] => ([], [])
  | e :: src =>
    let (stays, goes) := splitChain mask toI src
    if e.hashCode &&& mask = toI then (stays, e :: goes) else (e :: stays, goes)

def addBucket (t : Table K V F) : Option (Table K V F) := do
  let t ← (if t.bucketCount ≥ t.bucketCapacity then t.reserve (t.bucketCapacity * 2) else some t)
  let mask := if t.bucketCount &&& (t.bucketCount - 1) = 0 then t.bucketCount * 2 - 1 else t.mask
  let toI := t.bucketCount
  let fromI := toI &&& (mask >>> 1)
  let t := { t with mask := mask, bucketCount := toI + 1 }
  let t ← t.setBucket toI []
  let (stays, goes) := splitChain mask toI (← t.bucket fromI)
  let t ← t.setBucket fromI stays
  t.setBucket toI goes

def moveBucket (t : Table K V F) : Option (Table K V F) :=
  if t.newBegin > 0 then do
    let newBegin := t.newBegin - 1
    let newBuckets ← t.newBuckets.write newBegin (← t.oldBuckets.read newBegin)
    return { t with
      newBegin := newBegin
      newBuckets := newBuckets
      oldBuckets := if newBegin = 0 then [] else t.oldBuckets }
  else some t

def insertPostprocess (P : Params K V F) (t : Table K V F) : Option (Table K V F) := do
  let t := { t with size := t.size + 1 }
  let t ← (if P.exceeds t.size t.maxLoadFactor t.bucketCount then do
      let t ← t.addBucket
      let t ← t.moveBucket
      t.addBucket
    else some t)
  t.moveBucket

variable [DecidableEq K]

def findEntry (P : Params K V F) (t : Table K V F) (key : K) : Option (Chain K V) := do
  let chain ← t.bucket (t.hashToBucket (P.hash key))
  return chain.dropWhile fun e => !Entry.found (P.hash key) key e

def find (P : Params K V F) (t : Table K V F) (key : K) : Option (Chain K V) := t.findEntry P key

/-- The value, or `none` for the exception. -/
def at? (P : Params K V F) (t : Table K V F) (key : K) : Option (Option V) := do
  return (← t.findEntry P key).head?.map Entry.value

/-- What `insert`, `emplace` and `operator[]` share: a new entry is linked to the end of the chain
in which `find_entry` did not find the key. -/
def insertEntry (P : Params K V F) (t : Table K V F) (key : K) (value : V) : Option (Table K V F × Bool) := do
  let hashCode := P.hash key
  let i := t.hashToBucket hashCode
  let chain ← t.bucket i
  if chain.any (Entry.found hashCode key) then
    return (t, false)
  else
    let t ← t.setBucket i (chain ++ [newEntry P key value])
    return (← t.insertPostprocess P, true)

def insert (P : Params K V F) (t : Table K V F) (key : K) (value : V) : Option (Table K V F × Bool) :=
  t.insertEntry P key value

def emplace (P : Params K V F) (t : Table K V F) (key : K) (value : V) : Option (Table K V F × Bool) :=
  t.insertEntry P key value

def index (P : Params K V F) (t : Table K V F) (key : K) : Option (Table K V F) := do
  return (← t.insertEntry P key P.value).1

def assign (P : Params K V F) (t : Table K V F) (key : K) (value : V) : Option (Table K V F) := do
  let t ← t.index P key
  let i := t.hashToBucket (P.hash key)
  t.setBucket i ((← t.bucket i).map fun e =>
    if Entry.found (P.hash key) key e then { e with value := value } else e)

def eraseEntry (P : Params K V F) (t : Table K V F) (key : K) : Option (Table K V F) := do
  let i := t.hashToBucket (P.hash key)
  let t ← t.setBucket i ((← t.bucket i).eraseP (Entry.found (P.hash key) key))
  { t with size := t.size - 1 }.moveBucket

def eraseKey (P : Params K V F) (t : Table K V F) (key : K) : Option (Table K V F × Nat) := do
  if (← t.findEntry P key) = [] then
    return (t, 0)
  else
    return (← t.eraseEntry P key, 1)

def findFirstNonempty (t : Table K V F) : Nat → Nat → Option Nat
  | 0, i => some i
  | n + 1, i => do if (← t.bucket i) = [] then t.findFirstNonempty n (i + 1) else return i

def firstFrom (t : Table K V F) (i : Nat) : Option (Chain K V) := do
  let i ← t.findFirstNonempty (t.bucketCount - i) i
  if i ≥ t.bucketCount then return [] else t.bucket i

def begin (t : Table K V F) : Option (Chain K V) := t.firstFrom 0

def next (t : Table K V F) : Chain K V → Option (Chain K V)
  | [] => none
  | [e] => t.firstFrom (t.hashToBucket e.hashCode + 1)
  | _ :: it => some it

/-- The entries from `it` to the end. The number bounds the steps. -/
def walk (t : Table K V F) : Nat → Chain K V → Option (List (Entry K V))
  | _, [] => some []
  | 0, _ :: _ => none
  | n + 1, e :: it => do return e :: (← t.walk n (← t.next (e :: it)))

def entries (t : Table K V F) : Option (List (Entry K V)) := do t.walk t.size (← t.begin)

def iterator (t : Table K V F) : Nat → Option (Chain K V)
  | 0 => t.begin
  | n + 1 => do t.next (← t.iterator n)

def eraseIterator (P : Params K V F) (t : Table K V F) : Chain K V → Option (Table K V F)
  | [] => none
  | e :: _ => do if (← t.findEntry P e.key) = [] then none else t.eraseEntry P e.key

/-- Whether two iterators are at the same entry: an entry is known by its key. -/
def sameEntry (it it' : Chain K V) : Bool := it.head?.map Entry.key = it'.head?.map Entry.key

def eraseRange (P : Params K V F) (t : Table K V F) : Nat → Chain K V → Chain K V → Option (Table K V F)
  | 0, it, last => if sameEntry it last then some t else none
  | n + 1, it, last =>
    if sameEntry it last then some t
    else do
      let first ← t.next it
      (← t.eraseIterator P it).eraseRange P n first last

/-- The loop of `clear`. A size that is decremented below zero does not come back to it. -/
def clearBuckets (t : Table K V F) : Nat → Nat → Option (Table K V F)
  | 0, _ => some t
  | n + 1, i => do
    let chain ← t.bucket i
    if t.size < chain.length then none
    else (← { t with size := t.size - chain.length }.setBucket i []).clearBuckets n (i + 1)

def clear (t : Table K V F) : Option (Table K V F) := do
  let t ← t.clearBuckets t.bucketCount 0
  if t.size = 0 then
    return { t with
      newBegin := 0
      bucketCount := 1
      newBuckets := ← t.newBuckets.write 0 []
      mask := 0
      oldBuckets := [] }
  else none

def insertAll (P : Params K V F) (t : Table K V F) (es : List (Entry K V)) : Option (Table K V F) :=
  es.foldlM (fun t e => do return (← t.insert P e.key e.value).1) t

end Table

end

end Prpc.HashTable
