import Mathlib.Algebra.Order.Archimedean.Basic
import Mathlib.Algebra.Order.Floor.Semiring
import Mathlib.Data.Rat.Floor
import Prpc.Lib.LinkedNodes

/-!
`PoolHashTable` of `PoolHashTable.h` over `ArrayHashSpace` and `PairItemType`. An offset is the number
of its node: the code multiplies it by the node size. The items are values, so moving one is a copy of
its bytes and destroying one does nothing. An operation is `none` where the code fails a check, reads
an item that is not there or follows a chain that does not end.
-/

namespace Prpc.PoolHashTable

/-- The arithmetic of `double`: a result is the exact one, rounded. Counts of nodes and of items are
far below `2^53` and are exact. -/
structure Doubles where
  round : ℚ → ℚ
  mono : Monotone round
  exact : ∀ n : Nat, round n = n
  tenth : 0 < round (1 / 10)

def Factor (d : Doubles) : Type := { f : ℚ // d.round (1 / 10) ≤ f ∧ f ≤ 1 }

namespace Doubles
variable (d : Doubles)

theorem tenth_le_one : d.round (1 / 10) ≤ 1 := by
  have le := d.mono (show (1 / 10 : ℚ) ≤ ((1 : Nat) : ℚ) by norm_num)
  rwa [d.exact, Nat.cast_one] at le

def one : Factor d := ⟨1, d.tenth_le_one, le_refl 1⟩

def limit (factor : ℚ) : Factor d :=
  if low : factor < d.round (1 / 10) then ⟨d.round (1 / 10), le_refl _, d.tenth_le_one⟩
  else ⟨min 1 factor, le_min d.tenth_le_one (not_lt.1 low), min_le_left ..⟩

variable {d}

def below (f : Factor d) (buckets n : Nat) : Prop := d.round (buckets * f.1) < n

instance (f : Factor d) (buckets n : Nat) : Decidable (below f buckets n) :=
  inferInstanceAs (Decidable (d.round (buckets * f.1) < n))

theorem le_of_not_below {f : Factor d} {buckets n : Nat} (enough : ¬ below f buckets n) : n ≤ buckets := by
  have le : (buckets * f.1 : ℚ) ≤ buckets := mul_le_of_le_one_right (Nat.cast_nonneg _) f.2.2
  have rounded := d.mono le
  rw [d.exact] at rounded
  exact_mod_cast (not_lt.1 enough).trans rounded

theorem exists_not_below (f : Factor d) (buckets n : Nat) : ∃ more, ¬ below f (buckets + more) n := by
  obtain ⟨more, le⟩ := exists_nat_ge ((n : ℚ) / f.1)
  refine ⟨more, not_lt.2 ?_⟩
  have pos : 0 < f.1 := d.tenth.trans_le f.2.1
  have enough : (n : ℚ) ≤ (buckets + more : Nat) * f.1 := by
    rw [← div_le_iff₀ pos]
    push_cast
    exact le.trans (le_add_of_nonneg_left (Nat.cast_nonneg _))
  have rounded := d.mono enough
  rwa [d.exact] at rounded

def raise (f : Factor d) (n buckets : Nat) : Nat := buckets + Nat.find (exists_not_below f buckets n)

def quotient (f : Factor d) (n : Nat) : Nat := ⌊d.round (n / f.1)⌋₊

def share (f : Factor d) (nodes : Nat) : Nat := ⌊d.round (f.1 * nodes)⌋₊

end Doubles

structure Params (K V : Type) where
  doubles : Doubles
  hash : K → Nat
  value : V
  triviallyMovable : Bool
  nodeSize : Nat
  nodeSize_pos : 0 < nodeSize
  page : Nat
  page_pos : 0 < page

/-- The two low bits of `next`. -/
inductive Tag
  | empty
  | probe
  | head
  | rehash
  deriving DecidableEq

/-- The bytes that `prev` and the item share. -/
inductive Body (K V : Type)
  | prev (offset : Nat)
  | item (value : K × V)

def Body.offset {K V : Type} : Body K V → Nat
  | .prev offset => offset
  | .item _ => 0

def Body.value {K V : Type} : Body K V → Option (K × V)
  | .prev _ => none
  | .item value => some value

structure Node (K V : Type) where
  tag : Tag
  next : Nat
  body : Body K V

def Node.zero {K V : Type} : Node K V := ⟨.empty, 0, .prev 0⟩

/-- `_num_items` is counted in `Int`: the first scan of a rehash takes it below zero and back, where
the unsigned number of the code wraps around and back. -/
structure Table (K V : Type) (d : Doubles) where
  mem : Nat → Node K V
  numNodes : Nat
  maxLoadFactor : Factor d
  numItems : Int
  maxNumItems : Nat

section
variable {K V : Type} {d : Doubles}

namespace Table

def tag (t : Table K V d) (o : Nat) : Tag := (t.mem o).tag
def next (t : Table K V d) (o : Nat) : Nat := (t.mem o).next
def body (t : Table K V d) (o : Nat) : Body K V := (t.mem o).body
def prev (t : Table K V d) (o : Nat) : Nat := (t.body o).offset
def item (t : Table K V d) (o : Nat) : Option (K × V) := (t.body o).value

def isEmpty (t : Table K V d) (o : Nat) : Bool := t.tag o = .empty
def isRehashing (t : Table K V d) (o : Nat) : Bool := t.tag o = .rehash

def setWord (t : Table K V d) (o : Nat) (tag : Tag) (next : Nat) : Table K V d :=
  { t with mem := Function.update t.mem o { t.mem o with tag := tag, next := next } }

def setNext (t : Table K V d) (o next : Nat) : Table K V d := t.setWord o (t.tag o) next

def setBody (t : Table K V d) (o : Nat) (body : Body K V) : Table K V d :=
  { t with mem := Function.update t.mem o { t.mem o with body := body } }

def setPrev (t : Table K V d) (o prev : Nat) : Table K V d := t.setBody o (.prev prev)

def setItem (t : Table K V d) (o : Nat) (value : K × V) : Table K V d := t.setBody o (.item value)

def moveFrom (t : Table K V d) (o other : Nat) : Table K V d := t.setBody o (t.body other)

def mask (t : Table K V d) : Nat := 2 ^ Nat.log2 t.numNodes - 1

def hashHead (P : Params K V) (t : Table K V d) (key : K) : Nat := (P.hash key &&& t.mask) + 1

def probeOffset (t : Table K V d) (o : Nat) : Nat := if o < t.numNodes then o + 1 else 0

def offsetsFrom (t : Table K V d) (o : Nat) : List Nat :=
  if o = 0 then [] else List.range' o (t.numNodes + 1 - o)

def offsets (t : Table K V d) : List Nat := List.range' 1 t.numNodes

def getNextOffset (t : Table K V d) (o : Nat) : Nat :=
  ((t.offsetsFrom (t.probeOffset o)).find? fun o => !t.isEmpty o).getD 0

def allocateNode (t : Table K V d) (o : Nat) : Table K V d :=
  let t := { t with numItems := t.numItems + 1 }
  let t := t.setPrev (t.next o) (t.prev o)
  let t := t.setWord (t.prev o) (t.tag o) (t.next o)
  t.setWord o .probe 0

def deallocateNode (t : Table K V d) (o : Nat) : Table K V d :=
  let t := { t with numItems := t.numItems - 1 }
  let prev := t.prev 0
  let t := t.setWord o .empty 0
  let t := t.setPrev o prev
  let t := t.setPrev 0 o
  t.setWord prev .empty o

def resetRoot (t : Table K V d) : Table K V d := (t.setWord 0 .empty 0).setPrev 0 0

def initializeNodes (t : Table K V d) : Table K V d :=
  t.offsets.foldl deallocateNode { t.resetRoot with numItems := t.numNodes }

/-- `offset - probe < PROBE_LEN`, where `probe` is not before `offset` and the difference wraps. -/
def near (P : Params K V) (o probe : Nat) : Bool :=
  decide (((o * P.nodeSize : Int) - probe * P.nodeSize) % 2 ^ 64 < 128)

/-- The loop of `probe_node` and of `probe_node_rehash`. -/
def probeWhere (P : Params K V) (t : Table K V d) (wanted : Nat → Bool) (o : Nat) : Nat :=
  (((t.offsetsFrom o).takeWhile (near P o)).find? wanted).getD (t.prev 0)

def probeNode (P : Params K V) (t : Table K V d) (o : Nat) : Nat := t.probeWhere P t.isEmpty o

def probeNodeRehash (P : Params K V) (t : Table K V d) (o : Nat) : Nat :=
  t.probeWhere P (fun probe => t.isEmpty probe || t.isRehashing probe) o

def mapped (P : Params K V) (nodes : Nat) : Nat := (P.nodeSize * (nodes + 1) + P.page - 1) / P.page * P.page

def setSpace (P : Params K V) (t : Table K V d) (nodes : Nat) : Table K V d :=
  { t with
    mem := fun o => if o * P.nodeSize < mapped P nodes then t.mem o else Node.zero
    numNodes := nodes }

/-- `expand_space`: `ratio` is only looked at where `_mask` is not zero. -/
def expandSpace (t : Table K V d) : Nat :=
  let ratio := d.round (t.numNodes / t.mask)
  if t.mask ≠ 0 ∧ d.round (14 / 10) < ratio ∧ ratio < d.round (18 / 10) then (t.mask + 1) * 2
  else max ⌊d.round (t.numNodes * (45 / 32))⌋₊ (t.numNodes + 1)

def setMaxLoadFactor (t : Table K V d) (factor : ℚ) : Table K V d :=
  { t with
    maxLoadFactor := d.limit factor
    maxNumItems := min t.numNodes (Doubles.share (d.limit factor) t.numNodes) }

def clear (t : Table K V d) : Table K V d := t.initializeNodes

end Table

def construct (P : Params K V) : Table K V P.doubles :=
  Table.initializeNodes ⟨fun _ => Node.zero, 1, P.doubles.one, 0, 0⟩

namespace Table

def walk (t : Table K V d) : Nat → Nat → Option (List Nat)
  | 0, _ => none
  | n + 1, o => if t.next o = 0 then some [o] else do return o :: (← t.walk n (t.next o))

def chainEnd (t : Table K V d) (o : Nat) : Option Nat := do (← t.walk (t.numNodes + 1) o).getLast?

def nodeBefore (t : Table K V d) (target : Nat) : Nat → Nat → Option Nat
  | 0, _ => none
  | n + 1, probe => if t.next probe = target then some probe else t.nodeBefore target n (t.next probe)

def findNodeBefore (t : Table K V d) (head next : Nat) : Option Nat := t.nodeBefore next (t.numNodes + 1) head

/-- The items of a chain move one node on, the last one to `probe`; `back` has the chain's nodes from
the end on. -/
def shift (t : Table K V d) (probe : Nat) : (back : List Nat) → Table K V d
  | [] => t
  | o :: back => (t.moveFrom probe o).shift o back

def innerAllocate (P : Params K V) (t : Table K V d) (key : K) : Option (Nat × Table K V d) :=
  let head := t.hashHead P key
  match t.tag head with
  | .empty => some (head, (t.allocateNode head).setWord head .head 0)
  | .head => do
    let prev ← t.chainEnd head
    let probe := t.probeNode P prev
    return (probe, (t.allocateNode probe).setNext prev probe)
  | _ => do
    let item ← t.item head
    let exchange := t.hashHead P item.1
    let temp ← t.walk (t.numNodes + 1) head
    let prev ← temp.getLast?
    let probe := t.probeNode P prev
    let t := (t.allocateNode probe).setNext prev probe
    let t := t.shift probe temp.reverse
    let exchange ← t.findNodeBefore exchange head
    let t := t.setNext exchange (t.next head)
    return (head, t.setWord head .head 0)

def place (P : Params K V) (t : Table K V d) (item : K × V) : Option (Nat × Table K V d) := do
  let (o, t) ← t.innerAllocate P item.1
  return (o, t.setItem o item)

/-- A scan of all nodes that may look at a node again: `step` says whether to go on. -/
def scan (step : Table K V d → Nat → Option (Bool × Table K V d)) :
    Nat → Nat → Table K V d → Option (Table K V d)
  | _, 0, t => some t
  | 0, _ + 1, _ => none
  | n + 1, o + 1, t => do
    let (next, t) ← step t (o + 1)
    scan step n (if next then t.probeOffset (o + 1) else o + 1) t

/-- The first scan: the free list is made anew and every item waits. -/
def await (t : Table K V d) (o : Nat) : Table K V d :=
  if t.isEmpty o then
    let t := t.deallocateNode o
    { t with numItems := t.numItems + 1 }
  else t.setWord o .rehash (t.next o)

def exchangeItems (t : Table K V d) (o other : Nat) : Table K V d :=
  (t.setBody other (t.body o)).setBody o (t.body other)

def settleHead (P : Params K V) (t : Table K V d) (o : Nat) : Option (Bool × Table K V d) :=
  if t.isRehashing o then do
    let item ← t.item o
    let probe := t.hashHead P item.1
    if t.isRehashing probe then
      let t := t.setWord probe .head 0
      if probe ≠ o then return (false, t.exchangeItems o probe) else return (true, t)
    else if t.isEmpty probe then
      let t := t.allocateNode probe
      let t := t.setWord probe .head 0
      let t := t.moveFrom probe o
      return (true, t.deallocateNode o)
    else return (true, t)
  else some (true, t)

/-- The third scan: the other items, at the ends of the chains. -/
def settleProbe (P : Params K V) (t : Table K V d) (o : Nat) : Option (Bool × Table K V d) :=
  if t.isRehashing o then do
    let item ← t.item o
    let prev ← t.chainEnd (t.hashHead P item.1)
    let probe := t.probeNodeRehash P prev
    if t.isRehashing probe then
      let t := t.setWord probe .probe 0
      let t := t.setNext prev probe
      if probe ≠ o then return (false, t.exchangeItems o probe) else return (true, t)
    else
      let t := t.allocateNode probe
      let t := t.setNext prev probe
      let t := t.moveFrom probe o
      return (true, t.deallocateNode o)
  else some (true, t)

def innerRemapRehash (P : Params K V) (t : Table K V d) (nodes : Nat) : Option (Table K V d) := do
  guard (t.numNodes < nodes)
  let t := t.setSpace P nodes
  let t := t.setMaxLoadFactor t.maxLoadFactor.1
  let t := t.offsets.foldl await t.resetRoot
  let t ← scan (settleHead P) (2 * nodes + 1) (t.probeOffset 0) t
  scan (settleProbe P) (2 * nodes + 1) (t.probeOffset 0) t

def items (t : Table K V d) : Option (List (K × V)) := (t.offsets.filter fun o => !t.isEmpty o).mapM t.item

def innerSerializeRehash (P : Params K V) (t : Table K V d) (nodes : Nat) : Option (Table K V d) := do
  let items ← t.items
  let t := t.clear
  let t := t.setSpace P nodes
  let t := t.setMaxLoadFactor t.maxLoadFactor.1
  let t := t.initializeNodes
  items.foldlM (fun t item => do return (← t.place P item).2) t

def rehash (P : Params K V) (t : Table K V d) (buckets : Nat) : Option (Table K V d) :=
  let count := t.numItems.toNat
  let buckets := max buckets 1
  let buckets := max buckets (Doubles.quotient t.maxLoadFactor count)
  let buckets := Doubles.raise t.maxLoadFactor count buckets
  if buckets = t.numNodes then some t
  else if t.numNodes < buckets ∧ P.triviallyMovable then t.innerRemapRehash P buckets
  else t.innerSerializeRehash P buckets

def reserve (P : Params K V) (t : Table K V d) (n : Nat) : Option (Table K V d) :=
  if t.maxNumItems < n then
    let buckets := Doubles.raise t.maxLoadFactor n (Doubles.quotient t.maxLoadFactor n)
    if t.numNodes < buckets then t.rehash P (max buckets t.expandSpace) else some t
  else some t

variable [DecidableEq K]

def findFrom (t : Table K V d) (key : K) : Nat → Nat → Option Nat
  | 0, _ => none
  | n + 1, o => do
    let item ← t.item o
    if item.1 = key then return o
    else if t.next o = 0 then return 0
    else t.findFrom key n (t.next o)

def innerFind (P : Params K V) (t : Table K V d) (key : K) : Option Nat :=
  let head := t.hashHead P key
  if t.isEmpty head then some 0 else t.findFrom key (t.numNodes + 1) head

def find (P : Params K V) (t : Table K V d) (key : K) : Option Nat := t.innerFind P key

def count (P : Params K V) (t : Table K V d) (key : K) : Option Nat := do
  return if (← t.innerFind P key) ≠ 0 then 1 else 0

def at? (P : Params K V) (t : Table K V d) (key : K) : Option (Option V) := do
  let o ← t.innerFind P key
  if o = 0 then return none else return some (← t.item o).2

def size (t : Table K V d) : Int := t.numItems

def innerEmplaceNotExist (P : Params K V) (t : Table K V d) (item : K × V) : Option (Nat × Table K V d) := do
  (← t.reserve P (t.numItems + 1).toNat).place P item

def emplace (P : Params K V) (t : Table K V d) (item : K × V) : Option ((Nat × Bool) × Table K V d) := do
  let o ← t.find P item.1
  if o ≠ 0 then return ((o, false), t)
  else
    let (o, t) ← t.innerEmplaceNotExist P item
    return ((o, true), t)

def insert (P : Params K V) (t : Table K V d) (item : K × V) : Option ((Nat × Bool) × Table K V d) :=
  t.emplace P item

def tryEmplace (P : Params K V) (t : Table K V d) (key : K) (value : V) :
    Option ((Nat × Bool) × Table K V d) := do
  let o ← t.find P key
  if o ≠ 0 then return ((o, false), t)
  else
    let (o, t) ← t.innerEmplaceNotExist P (key, value)
    return ((o, true), t)

def index (P : Params K V) (t : Table K V d) (key : K) : Option (Nat × Table K V d) := do
  let o ← t.find P key
  if o ≠ 0 then return (o, t) else t.innerEmplaceNotExist P (key, P.value)

def assign (P : Params K V) (t : Table K V d) (key : K) (value : V) : Option (Table K V d) := do
  let (o, t) ← t.index P key
  return t.setItem o ((← t.item o).1, value)

def eraseIterator (P : Params K V) (t : Table K V d) (o : Nat) : Option (Nat × Table K V d) := do
  guard (o ≠ 0 ∧ !t.isEmpty o)
  let next := t.next o
  if next ≠ 0 then
    let t := t.moveFrom o next
    let t := t.setNext o (t.next next)
    let t := t.deallocateNode next
    return (if next < o then t.getNextOffset o else o, t)
  else
    let following := t.getNextOffset o
    let head := t.hashHead P (← t.item o).1
    if o ≠ head then
      let prev ← t.findNodeBefore head o
      return (following, (t.setNext prev 0).deallocateNode o)
    else return (following, t.deallocateNode o)

def eraseKey (P : Params K V) (t : Table K V d) (key : K) : Option (Nat × Table K V d) := do
  let o ← t.find P key
  if o ≠ 0 then return (1, (← t.eraseIterator P o).2) else return (0, t)

def prioritise (P : Params K V) (t : Table K V d) (key : K) : Option (Nat × Table K V d) := do
  let head := t.hashHead P key
  if t.isEmpty head then return (0, t)
  else
    let o ← t.findFrom key (t.numNodes + 1) head
    if o ≠ 0 then return (head, t.exchangeItems head o) else return (0, t)

def iterate (t : Table K V d) : Nat → Nat → Option (List Nat)
  | _, 0 => some []
  | 0, _ + 1 => none
  | n + 1, o + 1 => do return (o + 1) :: (← t.iterate n (t.getNextOffset (o + 1)))

def iteration (t : Table K V d) : Option (List Nat) := t.iterate t.numNodes (t.getNextOffset 0)

def entries (t : Table K V d) : Option (List (K × V)) := do (← t.iteration).mapM t.item

def copyConstruct (P : Params K V) (other : Table K V d) : Option (Table K V d) := do
  let t : Table K V d := ⟨fun _ => Node.zero, other.numNodes, other.maxLoadFactor, 0, other.maxNumItems⟩
  let t ← t.initializeNodes.reserve P other.size.toNat
  (← other.entries).foldlM (fun t item => do return (← t.insert P item).2) t

def movedFrom (other : Table K V d) : Table K V d :=
  let t := Table.initializeNodes { other with mem := fun _ => Node.zero, numNodes := 1 }
  { t with numItems := 0, maxNumItems := 0 }

end Table
end

end Prpc.PoolHashTable
