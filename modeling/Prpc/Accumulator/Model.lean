import Mathlib.Algebra.BigOperators.Group.Multiset.Basic
import Prpc.Lib.Transition

/-!
Writers merge into one of two buffers while the send thread sends the other one. Every critical
section is a step. `initialize_writer`, `finalize_writer` and `wait_empty_writer` are called with
`_client_mutex` held, so they follow each other, and a writer looks up its name between them.
-/

namespace Prpc.Accumulator
open Lib

variable {ι N : Type} {M : N → Type}

structure Buffer (M : N → Type) where
  aggs : ∀ n, M n
  flags : N → Bool
  count : Nat

/-- Where the send thread stands. With `last` it sends for the last time and holds `_write_mutex`. -/
inductive SendThread (M : N → Type)
  | absent
  | waiting
  | building (idx last : Bool)
  | calling (idx last : Bool) (request : List (Sigma M))
  | finishing (idx last : Bool)
  /-- the procedure returned and the thread was not yet joined -/
  | done
  /-- `std::thread` was assigned to while joinable -/
  | aborted

inductive Writer (M : N → Type)
  | idle
  | found (n : N) (agg : M n)
  | returned (accepted : Bool)

/-- Who has `_client_mutex` for longer than a step, or what was last called with it. -/
inductive Control
  | idle
  | joining
  | waitingEmpty
  | finalized
  | emptied
  deriving DecidableEq

structure State (ι : Type) (M : N → Type) where
  /-- the registered names, in the order of their ids -/
  names : List N
  buffers : Bool → Buffer M
  idx : Bool
  closed : Bool
  sendThread : SendThread M
  writers : ι → Writer M
  control : Control
  /-- `_umap_name2aggs` of the server -/
  server : ∀ n, Option (M n)
  /-- the writes that returned `true` -/
  accepted : ∀ n, Multiset (M n)

def SendThread.locks : SendThread M → Bool
  | building _ last | calling _ last _ | finishing _ last => last
  | _ => false

def Control.locks : Control → Bool
  | joining | waitingEmpty => true
  | _ => false

section
variable [DecidableEq N] [∀ n, CommMonoid (M n)]

def initial : State ι M :=
  ⟨[], fun _ => ⟨fun _ => 1, fun _ => false, 0⟩, false, true, .absent, fun _ => .idle, .idle,
    fun _ => none, fun _ => 0⟩

def mergeWrite (server : ∀ n, Option (M n)) (delta : Sigma M) : ∀ n, Option (M n) :=
  Function.update server delta.1 <| match server delta.1 with
    | none => some delta.2
    | some agg => some (agg * delta.2)

def processWriteRequest (server : ∀ n, Option (M n)) (request : List (Sigma M)) : ∀ n, Option (M n) :=
  request.foldl mergeWrite server

def Buffer.request (b : Buffer M) (names : List N) : List (Sigma M) :=
  (names.filter b.flags).map fun n => ⟨n, b.aggs n⟩

def Buffer.sent (b : Buffer M) (names : List N) : Buffer M :=
  { b with
    aggs := fun n => if n ∈ names.filter b.flags then 1 else b.aggs n
    flags := fun n => if n ∈ names.filter b.flags then false else b.flags n }

def Buffer.merge (b : Buffer M) (n : N) (agg : M n) : Buffer M where
  aggs := Function.update b.aggs n (b.aggs n * agg)
  flags := Function.update b.flags n true
  count := b.count + 1

namespace State

def setBuffer (s : State ι M) (idx : Bool) (b : Buffer M) : State ι M :=
  { s with buffers := Function.update s.buffers idx b }

def goSendThread (s : State ι M) : Option (State ι M) :=
  match s.sendThread with
  | .absent | .done | .aborted => none
  | .waiting =>
    if 0 < (s.buffers s.idx).count then
      some { s with idx := !s.idx, sendThread := .building s.idx false }
    else if s.closed then some { s with sendThread := .done }
    else none
  | .building idx last =>
    let request := (s.buffers idx).request s.names
    if request = [] then some { s with sendThread := .finishing idx last }
    else
      some { s.setBuffer idx ((s.buffers idx).sent s.names) with
        sendThread := .calling idx last request }
  | .calling idx last request =>
    some { s with
      server := processWriteRequest s.server request, sendThread := .finishing idx last }
  | .finishing idx last =>
    let s := s.setBuffer idx { s.buffers idx with count := 0 }
    some { s with
      sendThread :=
        if last then .done
        else if s.closed then
          if 0 < (s.buffers s.idx).count then .building s.idx true else .done
        else .waiting }

def addAggregator (s : State ι M) (n : N) : Option (State ι M) :=
  if s.control.locks then none
  else some (if n ∈ s.names then s else { s with names := s.names ++ [n] })

section
variable [DecidableEq ι]

/-- The first critical section of `write`. -/
def write (s : State ι M) (i : ι) (n : N) (agg : M n) : Option (State ι M) :=
  match s.writers i with
  | .found .. => none
  | .idle | .returned _ =>
    if s.control.locks then none
    else some { s with
      writers := Function.update s.writers i <| if n ∈ s.names then .found n agg else .returned false }

/-- The second critical section of `write`. -/
def goWriter (s : State ι M) (i : ι) : Option (State ι M) :=
  match s.writers i with
  | .idle | .returned _ => none
  | .found n agg =>
    if s.sendThread.locks then none
    else if s.closed then
      some { s with writers := Function.update s.writers i (.returned false) }
    else
      some { s.setBuffer s.idx ((s.buffers s.idx).merge n agg) with
        accepted := Function.update s.accepted n (agg ::ₘ s.accepted n)
        writers := Function.update s.writers i (.returned true) }

end

def initializeWriter (s : State ι M) : Option (State ι M) :=
  if s.control.locks || s.sendThread.locks then none
  else if !s.closed then some s
  else some { s with
    closed := false
    sendThread := match s.sendThread with
      | .absent => .waiting
      | _ => .aborted }

def finalizeWriter (s : State ι M) : Option (State ι M) :=
  if s.control.locks || s.sendThread.locks then none
  else if s.closed then some { s with control := .finalized }
  else some { s with closed := true, control := .joining }

def waitEmptyWriter (s : State ι M) : Option (State ι M) :=
  if s.control.locks then none else some { s with control := .waitingEmpty }

def goControl (s : State ι M) : Option (State ι M) :=
  match s.control with
  | .idle | .finalized | .emptied => none
  | .joining =>
    match s.sendThread with
    | .absent => some { s with control := .finalized }
    | .done => some { s with sendThread := .absent, control := .finalized }
    | _ => none
  | .waitingEmpty =>
    if s.sendThread.locks then none
    else if s.closed ∨ (s.buffers false).count = 0 ∧ (s.buffers true).count = 0 then
      some { s with control := .emptied }
    else none

end State

end

inductive Action (ι : Type) (M : N → Type)
  | addAggregator (n : N)
  | write (i : ι) (n : N) (agg : M n)
  | goWriter (i : ι)
  | goSendThread
  | initializeWriter
  | finalizeWriter
  | waitEmptyWriter
  | goControl

section
variable [DecidableEq N] [∀ n, CommMonoid (M n)] [DecidableEq ι]

def act (s : State ι M) : Action ι M → Option (State ι M)
  | .addAggregator n => s.addAggregator n
  | .write i n agg => s.write i n agg
  | .goWriter i => s.goWriter i
  | .goSendThread => s.goSendThread
  | .initializeWriter => s.initializeWriter
  | .finalizeWriter => s.finalizeWriter
  | .waitEmptyWriter => s.waitEmptyWriter
  | .goControl => s.goControl

inductive ClientStep : State ι M → State ι M → Prop
  | act {s s' : State ι M} (a : Action ι M) (acted : act s a = some s') : ClientStep s s'

abbrev ClientReachable : State ι M → Prop := Reachable (· = initial) ClientStep

end

end Prpc.Accumulator
