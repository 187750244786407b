import Mathlib.Data.Finmap
import Prpc.Lib.Transition

/-!
`FairQueue` and the functions of `RpcContext` that use it. Their calls are serialised by the lock of the
context. A failed check and an index that is out of range are `none`. The two counters of a new
`FairQueue` hold anything.
-/

namespace Prpc.Routing
open Lib

variable {D Q : Type} [DecidableEq D]

def swapOut {α : Type} (l : List α) (i : Nat) : List α :=
  match l.getLast? with
  | some back => (l.set i back).dropLast
  | none => l

theorem length_swapOut {α : Type} (l : List α) (i : Nat) : (swapOut l i).length = l.length - 1 := by
  rw [swapOut]
  cases last : l.getLast? with
  | none =>
    rw [List.getLast?_eq_none_iff] at last
    simp [last]
  | some back => simp

/-- The loop over the dealers in `remove_server_dealer`, which does not look again at what it has moved. -/
def removeAll (dealer : D) (i : Nat) (dealers : List D) : List D :=
  if i < dealers.length then
    if dealers[i]? = some dealer then removeAll dealer (i + 1) (swapOut dealers i)
    else removeAll dealer (i + 1) dealers
  else dealers
termination_by dealers.length - i
decreasing_by
  · rw [length_swapOut]
    omega
  · omega

def removeOne (sid : Int) (sids : List Int) : List Int :=
  match sids.idxOf? sid with
  | some i => swapOut sids i
  | none => sids

structure Counters where
  sidsRrIndex : BitVec 32
  dealerIdRrIndex : BitVec 64

structure FairQueue (D Q : Type) where
  sid2dealers : Finmap fun _ : Int => List D
  sids : List Int
  counters : Counters
  sid2cache : Finmap fun _ : Int => List Q

namespace FairQueue

def new (counters : Counters) : FairQueue D Q := ⟨∅, [], counters, ∅⟩

def addServer (q : FairQueue D Q) (sid : Int) : Option (FairQueue D Q) :=
  if sid ∈ q.sid2cache then none else some { q with sid2cache := q.sid2cache.insert sid [] }

def removeServer (q : FairQueue D Q) (sid : Int) : Option (FairQueue D Q × List Q) :=
  match q.sid2cache.lookup sid with
  | some cache => some ({ q with sid2cache := q.sid2cache.erase sid }, cache)
  | none => none

def appendDealer (q : FairQueue D Q) (sid : Int) (dealer : D) : FairQueue D Q :=
  { q with
    sid2dealers := q.sid2dealers.insert sid ((q.sid2dealers.lookup sid).getD [] ++ [dealer])
    sids := q.sids ++ [sid] }

def addServerDealer (q : FairQueue D Q) (sid : Int) (dealer : D) : FairQueue D Q × List Q :=
  match q.sid2cache.lookup sid with
  | some cache => ({ q.appendDealer sid dealer with sid2cache := q.sid2cache.insert sid [] }, cache)
  | none => (q.appendDealer sid dealer, [])

def removeServerDealer (q : FairQueue D Q) (sid : Int) (dealer : D) : Option (FairQueue D Q) :=
  match q.sid2dealers.lookup sid with
  | some dealers =>
    let dealers := removeAll dealer 0 dealers
    some { q with
      sid2dealers := if dealers = [] then q.sid2dealers.erase sid else q.sid2dealers.insert sid dealers
      sids := removeOne sid q.sids }
  | none => none

def empty (q : FairQueue D Q) : Prop := q.sid2dealers.keys = ∅ ∧ q.sid2cache.keys = ∅

instance (q : FairQueue D Q) : Decidable q.empty := inferInstanceAs (Decidable (_ ∧ _))

/-- `_sids[_sids_rr_index.fetch_add(1) % _sids.size()]`; the index is converted to `size_t`. -/
def takeSid (q : FairQueue D Q) : Option (Int × FairQueue D Q) :=
  let index := (q.counters.sidsRrIndex.signExtend 64).toNat % q.sids.length
  let q' := { q with counters := { q.counters with sidsRrIndex := q.counters.sidsRrIndex + 1 } }
  q.sids[index]?.map (·, q')

def chooseSid (q : FairQueue D Q) (sid : Int) : Option (Option Int × FairQueue D Q) :=
  if sid = -1 then
    if q.sids = [] then some (none, q)
    else q.takeSid.map fun r => (some r.1, r.2)
  else some (some sid, q)

def takeDealer (q : FairQueue D Q) (dealers : List D) : Option (Option D × FairQueue D Q) :=
  if dealers = [] then none
  else
    let index := q.counters.dealerIdRrIndex + 1
    let index := if index.toNat ≥ dealers.length then 0 else index
    dealers[index.toNat]?.map fun d =>
      (some d, { q with counters := { q.counters with dealerIdRrIndex := index } })

def next (q : FairQueue D Q) (sid : Int) : Option (Option D × FairQueue D Q) :=
  match q.chooseSid sid with
  | some (some sid, q) =>
    match q.sid2dealers.lookup sid with
    | some dealers => q.takeDealer dealers
    | none => some (none, q)
  | some (none, q) => some (none, q)
  | none => none

inductive Pushed (D : Type)
  | handed (dealer : D)
  | cached
  | refused

def pushTo (q : FairQueue D Q) (sid : Int) (req : Q) : Option (Pushed D × FairQueue D Q) :=
  match q.sid2dealers.lookup sid with
  | some dealers => dealers.getLast?.map fun d => (.handed d, q)
  | none =>
    match q.sid2cache.lookup sid with
    | some cache => some (.cached, { q with sid2cache := q.sid2cache.insert sid (cache ++ [req]) })
    | none => some (.refused, q)

/-- `first` is the key that the iteration over `_sid2cache` begins with. -/
def pushRequest (q : FairQueue D Q) (first sid : Int) (req : Q) : Option (Pushed D × FairQueue D Q) :=
  if sid = -1 then
    if q.sid2cache.keys = ∅ then some (.refused, q)
    else if q.sids = [] then q.pushTo first req
    else q.takeSid.bind fun r => r.2.pushTo r.1 req
  else q.pushTo sid req

end FairQueue

structure Request where
  rpcId : Int
  sid : Int
  deriving DecidableEq

/-- Requests are numbered as they are pushed. What has been done with them so far stands in the last
three lists. -/
structure Context (D : Type) where
  serverBackend : Finmap fun _ : Int => FairQueue D Nat
  pushed : List Request
  handed : List (D × Nat)
  removed : List Nat
  dropped : List Nat

namespace Context

def initial : Context D := ⟨∅, [], [], [], []⟩

def obtain_ (c : Context D) (rpcId : Int) (counters : Counters) : FairQueue D Nat :=
  (c.serverBackend.lookup rpcId).getD (.new counters)

def store (c : Context D) (rpcId : Int) (q : FairQueue D Nat) : Context D :=
  { c with serverBackend := c.serverBackend.insert rpcId q }

def settle (c : Context D) (rpcId : Int) (q : FairQueue D Nat) : Context D :=
  if q.empty then { c with serverBackend := c.serverBackend.erase rpcId } else c.store rpcId q

def endAddServer (c : Context D) (rpcId sid : Int) (counters : Counters) : Option (Context D) :=
  ((c.obtain_ rpcId counters).addServer sid).map (c.store rpcId)

def removeServer (c : Context D) (rpcId sid : Int) : Option (Context D) :=
  (c.serverBackend.lookup rpcId).bind fun q =>
    (q.removeServer sid).map fun r => { c with removed := c.removed ++ r.2 }.settle rpcId r.1

def addServerDealer (c : Context D) (rpcId sid : Int) (dealer : D) (counters : Counters) : Context D :=
  let r := (c.obtain_ rpcId counters).addServerDealer sid dealer
  { c with handed := c.handed ++ r.2.map (dealer, ·) }.store rpcId r.1

def removeServerDealer (c : Context D) (rpcId sid : Int) (dealer : D) : Option (Context D) :=
  (c.serverBackend.lookup rpcId).bind fun q => (q.removeServerDealer sid dealer).map (c.settle rpcId)

def hand (c : Context D) (dealer : D) (n : Nat) : Context D := { c with handed := c.handed ++ [(dealer, n)] }

def place (c : Context D) (n : Nat) : FairQueue.Pushed D → Context D
  | .handed dealer => c.hand dealer n
  | .cached => c
  | .refused => { c with dropped := c.dropped ++ [n] }

def route (c : Context D) (req : Request) (n : Nat) (first : Int) (q : FairQueue D Nat) : Option (Context D) :=
  match q.next req.sid with
  | some (some dealer, q) => some ((c.hand dealer n).store req.rpcId q)
  | some (none, q) => (q.pushRequest first req.sid n).map fun r => (c.place n r.1).store req.rpcId r.2
  | none => none

def pushRequest (c : Context D) (req : Request) (first : Int) : Option (Context D) :=
  let n := c.pushed.length
  let c' := { c with pushed := c.pushed ++ [req] }
  match c.serverBackend.lookup req.rpcId with
  | some q => c'.route req n first q
  | none => some { c' with dropped := c.dropped ++ [n] }

end Context

inductive Op (D : Type)
  | endAddServer (rpcId sid : Int) (counters : Counters)
  | removeServer (rpcId sid : Int)
  | addServerDealer (rpcId sid : Int) (dealer : D) (counters : Counters)
  | removeServerDealer (rpcId sid : Int) (dealer : D)
  | pushRequest (req : Request) (first : Int)

def apply (c : Context D) : Op D → Option (Context D)
  | .endAddServer rpcId sid counters => c.endAddServer rpcId sid counters
  | .removeServer rpcId sid => c.removeServer rpcId sid
  | .addServerDealer rpcId sid dealer counters => some (c.addServerDealer rpcId sid dealer counters)
  | .removeServerDealer rpcId sid dealer => c.removeServerDealer rpcId sid dealer
  | .pushRequest req first => c.pushRequest req first

namespace FairQueue

def dealers (q : FairQueue D Q) (sid : Int) : List D := (q.sid2dealers.lookup sid).getD []

def cached (q : FairQueue D Q) (sid : Int) : List Q := (q.sid2cache.lookup sid).getD []

end FairQueue

namespace Context

def queue (c : Context D) (rpcId : Int) : FairQueue D Nat := c.obtain_ rpcId ⟨0, 0⟩

/-- A dealer is added once before it is removed, and the iteration over the caches begins with one of them. -/
def Legal (c : Context D) : Op D → Prop
  | .addServerDealer rpcId sid dealer _ => dealer ∉ (c.queue rpcId).dealers sid
  | .removeServerDealer rpcId sid dealer => dealer ∈ (c.queue rpcId).dealers sid
  | .pushRequest req first =>
    (c.queue req.rpcId).sid2cache.keys = ∅ ∨ first ∈ (c.queue req.rpcId).sid2cache
  | _ => True

end Context

inductive Step : Context D → Context D → Prop
  | op {c c' : Context D} (op : Op D) (legal : c.Legal op) (applied : apply c op = some c') : Step c c'

abbrev ContextReachable : Context D → Prop := Reachable (fun c => c = .initial) Step

end Prpc.Routing
