import Mathlib.Data.Finmap
import Prpc.Lib.Transition

/-!
`LRUCache` of `LRUCache.h`, one operation at a time. The nodes of the list live in a heap and a pointer
is an address or null; a step is `none` where the code reads or writes a node that is not there. Numbers
of type `size_t` are reduced modulo `2 ^ 64`. What an operation cannot know, the time, the address of a
new node and whether `try_upgrade` succeeds, is a parameter of it.
-/

namespace Prpc.LRUCache
open Lib

abbrev Ptr := Option Nat

structure Node (K : Type) where
  key : K
  valueMemoryUsage : Nat
  prev : Ptr
  next : Ptr

structure Entry (V : Type) where
  value : V
  node : Nat
  accessCount : Int
  insertTimestampSec : Int

def Entry.touch {V : Type} (e : Entry V) : Entry V :=
  { e with accessCount := Int.bmod (e.accessCount + 1) (2 ^ 32) }

/-- The limits, where `0` stands for none, and `VALUE_MEMORY_USAGE_FN`. -/
structure Config (V : Type) where
  maxItemCount : Nat
  maxItemMemoryUsage : Nat
  itemTtlSec : Nat
  itemMaxAccessCount : Nat
  memoryUsage : V → Nat

structure Cache (K V : Type) where
  hashmap : Finmap fun _ : K => Entry V
  heap : Finmap fun _ : Nat => Node K
  head : Ptr
  tail : Ptr
  itemCount : Nat
  itemMemoryUsage : Nat

section
variable {K V : Type}

def empty (K V : Type) : Cache K V := ⟨∅, ∅, none, none, 0, 0⟩

def plus (a b : Nat) : Nat := (a + b) % 2 ^ 64
def minus (a b : Nat) : Nat := (a + (2 ^ 64 - b % 2 ^ 64)) % 2 ^ 64

namespace Cache

def setPrev (c : Cache K V) (a : Nat) (prev : Ptr) : Option (Cache K V) := do
  return { c with heap := c.heap.insert a { ← c.heap.lookup a with prev := prev } }

def setNext (c : Cache K V) (a : Nat) (next : Ptr) : Option (Cache K V) := do
  return { c with heap := c.heap.insert a { ← c.heap.lookup a with next := next } }

def setPrevOf (c : Cache K V) (p prev : Ptr) : Option (Cache K V) :=
  match p with
  | some a => c.setPrev a prev
  | none => some c

def setNextOf (c : Cache K V) (p next : Ptr) : Option (Cache K V) :=
  match p with
  | some a => c.setNext a next
  | none => some c

def retractTail (c : Cache K V) (a : Nat) : Option (Cache K V) :=
  if c.tail = some a then do return { c with tail := (← c.heap.lookup a).prev } else some c

def advanceHead (c : Cache K V) (a : Nat) : Option (Cache K V) :=
  if c.head = some a then do return { c with head := (← c.heap.lookup a).next } else some c

def delinkNode (c : Cache K V) (a : Nat) : Option (Cache K V) := do
  let c ← c.retractTail a
  let c ← c.advanceHead a
  let node ← c.heap.lookup a
  let c ← c.setNextOf node.prev node.next
  let c ← c.setPrevOf node.next node.prev
  (← c.setPrev a none).setNext a none

def pushNodeToFront (c : Cache K V) (a : Nat) : Option (Cache K V) := do
  let c ← c.setPrevOf c.head (some a)
  let c ← c.setPrev a none
  let c ← c.setNext a c.head
  let c := { c with head := some a }
  return if c.tail = none then { c with tail := c.head } else c

variable [DecidableEq K]

def evict (c : Cache K V) : Ptr → Option (Cache K V)
  | none => some c
  | some a => do
    let c ← c.delinkNode a
    let node ← c.heap.lookup a
    return { c with
      itemCount := minus c.itemCount 1
      itemMemoryUsage := minus c.itemMemoryUsage node.valueMemoryUsage
      hashmap := c.hashmap.erase node.key
      heap := c.heap.erase a }

end Cache

/-- Both arguments become `size_t`, and so does the difference of the times. -/
def itemOutdated (P : Config V) (accessCount insertTimestampSec now : Int) : Bool :=
  (P.itemMaxAccessCount ≠ 0 && accessCount % 2 ^ 64 ≥ P.itemMaxAccessCount) ||
    (P.itemTtlSec ≠ 0 && (now - insertTimestampSec) % 2 ^ 64 ≥ P.itemTtlSec)

def Cache.needToEvict (P : Config V) (c : Cache K V) : Bool :=
  (P.maxItemCount ≠ 0 && c.itemCount > P.maxItemCount) ||
    (P.maxItemMemoryUsage ≠ 0 && c.itemMemoryUsage > P.maxItemMemoryUsage)

variable [DecidableEq K]

namespace Cache

/-- An access is counted. An entry shares the count, an `atomic<int>`, with its copies. -/
def touch (c : Cache K V) (key : K) (e : Entry V) : Cache K V :=
  { c with hashmap := c.hashmap.insert key e.touch }

/-- `find`, with the value it finds. `now` and `now'` are the times of the two tests. -/
def find (P : Config V) (c : Cache K V) (key : K) (now now' : Int) (upgraded : Bool) :
    Option (Option V × Cache K V) :=
  match c.hashmap.lookup key with
  | none => some (none, c)
  | some e =>
    let c := c.touch key e
    if itemOutdated P e.touch.accessCount e.insertTimestampSec now then
      match c.hashmap.lookup key with
      | none => some (some e.value, c)
      | some e' =>
        if itemOutdated P e'.accessCount e'.insertTimestampSec now' then do
          return (some e.value, ← c.evict (some e'.node))
        else some (some e.value, c)
    else if upgraded then do
      let c ← c.delinkNode e.node
      return (some e.value, ← c.pushNodeToFront e.node)
    else some (some e.value, c)

def nodeOf (c : Cache K V) (key : K) (address : Nat) : Option (Nat × Cache K V) :=
  match c.hashmap.lookup key with
  | some e => some (e.node, c)
  | none => do
    guard (address ∉ c.heap)
    return (address, { c with heap := c.heap.insert address ⟨key, 0, none, none⟩ })

def emplace (c : Cache K V) (key : K) (e : Entry V) : Cache K V :=
  if key ∈ c.hashmap then c else { c with hashmap := c.hashmap.insert key e }

def evictIfNeeded (P : Config V) (c : Cache K V) : Option (Cache K V) :=
  if c.needToEvict P then c.evict c.tail else some c

def insert (P : Config V) (c : Cache K V) (key : K) (value : V) (address : Nat) (now : Int) :
    Option (Cache K V) := do
  let (a, c) ← c.nodeOf key address
  let c ← c.evictIfNeeded P
  let node ← c.heap.lookup a
  let c := { c with heap := c.heap.insert a { node with valueMemoryUsage := P.memoryUsage value } }
  let c := c.emplace key ⟨value, a, 0, now⟩
  let c ← c.delinkNode a
  let c ← c.pushNodeToFront a
  let node ← c.heap.lookup a
  let c := { c with
    itemCount := plus c.itemCount 1
    itemMemoryUsage := plus c.itemMemoryUsage node.valueMemoryUsage }
  c.evictIfNeeded P

/-- The loop of `clear`. Every pass deletes a node, so that there are no more passes than nodes. -/
def deleteFrom (heap : Finmap fun _ : Nat => Node K) : Nat → Ptr → Option (Finmap fun _ : Nat => Node K)
  | _, none => some heap
  | 0, some _ => none
  | n + 1, some a => do
    let node ← heap.lookup a
    deleteFrom (heap.erase a) n node.next

def clear (c : Cache K V) : Option (Cache K V) := do
  let heap ← deleteFrom c.heap c.heap.keys.card c.head
  return { c with
    hashmap := ∅, heap := heap, itemMemoryUsage := 0, itemCount := 0, head := none, tail := none }

end Cache

inductive Op (K V : Type)
  | insert (key : K) (value : V) (address : Nat) (now : Int)
  | find (key : K) (now now' : Int) (upgraded : Bool)
  | clear

def apply (P : Config V) (c : Cache K V) : Op K V → Option (Cache K V)
  | .insert key value address now => c.insert P key value address now
  | .find key now now' upgraded => do return (← c.find P key now now' upgraded).2
  | .clear => c.clear

def Legal (c : Cache K V) : Op K V → Prop
  | .insert _ _ address _ => address ∉ c.heap
  | _ => True

def InsertsNew (c : Cache K V) : Op K V → Prop
  | .insert key _ _ _ => key ∉ c.hashmap
  | _ => True

inductive CacheStep (P : Config V) (allowed : Cache K V → Op K V → Prop) : Cache K V → Cache K V → Prop
  | op {c c' : Cache K V} (op : Op K V) (legal : Legal c op) (guard : allowed c op)
      (applied : apply P c op = some c') : CacheStep P allowed c c'

abbrev CacheReachable (P : Config V) (allowed : Cache K V → Op K V → Prop) : Cache K V → Prop :=
  Reachable (· = empty K V) (CacheStep P allowed)

end

end Prpc.LRUCache
