import Mathlib.Data.Option.Basic
import Prpc.Lib.LinkedNodes
import Prpc.Lib.Transition

/-!
Nodes that were popped are used again. Every access to an atomic is a step of its own, and so are the
accesses to the value of a node. Nodes are numbered in the order of their allocation and are not
freed before the destructor.
-/

namespace Prpc.SpscQueue
open Lib Function

/-- Where `push` stands, named after the last access. -/
inductive Producer (T : Type) where
  | idle
  | loadedFirst (v : T) (n : Nat)
  | atTailcopy (v : T) (n : Nat) (next : Option Nat)
  | reusing (v : T) (n : Nat) (next : Option Nat)
  | storedFirst (v : T) (n : Nat)
  | cleared (v : T) (n : Nat)
  | allocated (v : T) (n : Nat)
  | loadedHead (v : T) (h n : Nat)
  | linked (v : T) (n : Nat)

inductive Consumer where
  | returned (popped : Bool)
  | loadedTail (t : Nat)
  | found (next : Nat)
  | taken (next : Nat)
  deriving DecidableEq

structure State (T : Type) where
  next : Nat → Option Nat
  /-- the values, `none` if moved from -/
  value : Nat → Option T
  allocated : Nat
  tail : Nat
  head : Nat
  first : Nat
  tailcopy : Nat
  producer : Producer T
  consumer : Consumer
  /-- the pushes that stored their link -/
  pushed : List T
  completed : List T
  popped : List T

namespace State
variable {T : Type} {s s' : State T}

def initial : State T := ⟨fun _ => none, fun _ => none, 1, 0, 0, 0, 0, .idle, .returned false, [], [], []⟩

def push (s : State T) (v : T) : Option (State T) :=
  match s.producer with
  | .idle => some { s with producer := .loadedFirst v s.first }
  | _ => none

def goProducer (s : State T) : Option (State T) :=
  match s.producer with
  | .idle => none
  | .loadedFirst v n =>
    some { s with
      producer := if n ≠ s.tailcopy then .reusing v n (s.next n) else .atTailcopy v n (s.next n) }
  | .atTailcopy v n next =>
    let s := { s with tailcopy := s.tail }
    if n ≠ s.tailcopy then
      some { s with producer := .reusing v n next }
    else
      some { s with
        next := update s.next s.allocated none
        value := update s.value s.allocated (some v)
        allocated := s.allocated + 1
        producer := .allocated v s.allocated }
  | .reusing v n next => do
    -- a null pointer in `_first` is not modelled
    let next ← next
    return { s with first := next, producer := .storedFirst v n }
  | .storedFirst v n => some { s with next := update s.next n none, producer := .cleared v n }
  | .cleared v n => some { s with value := update s.value n (some v), producer := .allocated v n }
  | .allocated v n => some { s with producer := .loadedHead v s.head n }
  | .loadedHead v h n =>
    some { s with
      next := update s.next h (some n), pushed := s.pushed ++ [v], producer := .linked v n }
  | .linked v n => some { s with head := n, completed := s.completed ++ [v], producer := .idle }

def goConsumer (s : State T) : Option (State T) :=
  match s.consumer with
  | .returned _ => some { s with consumer := .loadedTail s.tail }
  | .loadedTail t =>
    some { s with
      consumer := match s.next t with
        | some next => .found next
        | none => .returned false }
  | .found next => do
    let v ← s.value next
    return { s with
      value := update s.value next none, popped := s.popped ++ [v], consumer := .taken next }
  | .taken next => some { s with tail := next, consumer := .returned true }

end State

inductive Action (T : Type) where
  | push (v : T)
  | goProducer
  | goConsumer

section
variable {T : Type}

def State.act (s : State T) : Action T → Option (State T)
  | .push v => s.push v
  | .goProducer => s.goProducer
  | .goConsumer => s.goConsumer

inductive Step : State T → State T → Prop
  | act {s s' : State T} (a : Action T) (acted : s.act a = some s') : Step s s'

abbrev StateReachable : State T → Prop := Reachable (· = State.initial) Step

def State.Detached (s : State T) (chain : List Nat) (n : Nat) : Prop := n ∉ chain ∧ n < s.allocated

def State.ProducerInv (s : State T) (spare chain : List Nat) : Prop :=
  match s.producer with
  | .idle => True
  | .linked _ n => [s.head, n] <:+ chain
  | .loadedFirst _ n => n = s.first
  | .atTailcopy _ n next => n = s.first ∧ next = s.next n
  | .reusing _ n next => n = s.first ∧ next = s.next n ∧ n ∈ spare ∧ n ≠ s.tailcopy
  | .storedFirst _ n => s.Detached chain n
  | .cleared _ n => s.Detached chain n ∧ s.next n = none
  | .allocated v n => s.Detached chain n ∧ s.next n = none ∧ s.value n = some v
  | .loadedHead v h n =>
    h = s.head ∧ s.Detached chain n ∧ s.next n = none ∧ s.value n = some v

def State.ConsumerInv (s : State T) (rest : List Nat) : Prop :=
  match s.consumer with
  | .returned _ => True
  | .loadedTail t => t = s.tail
  | .found next | .taken next => rest.head? = some next

def State.full (s : State T) (rest : List Nat) : List Nat :=
  match s.consumer with
  | .taken _ => rest.tail
  | _ => rest

def State.last (s : State T) : Nat :=
  match s.producer with
  | .linked _ n => n
  | _ => s.head

def State.returning (s : State T) : List T :=
  match s.producer with
  | .linked v _ => [v]
  | _ => []

/-- `spare` are the nodes from `_first` up to the tail and `rest` those after the tail. -/
structure State.Inv (s : State T) (spare rest : List Nat) : Prop where
  chain : Chain s.next (spare ++ s.tail :: rest)
  nodup : (spare ++ s.tail :: rest).Nodup
  bounded : ∀ a ∈ spare ++ s.tail :: rest, a < s.allocated
  first : (spare ++ s.tail :: rest).head? = some s.first
  last : (spare ++ s.tail :: rest).getLast? = some s.last
  tailcopy : s.tailcopy ∈ spare ++ [s.tail]
  values : s.pushed.map some = s.popped.map some ++ (s.full rest).map s.value
  completed : s.pushed = s.completed ++ s.returning
  producer : s.ProducerInv spare (spare ++ s.tail :: rest)
  consumer : s.ConsumerInv rest

theorem State.Inv.initial : (State.initial : State T).Inv [] [] where
  chain := rfl
  nodup := List.nodup_singleton 0
  bounded := by simp [State.initial]
  first := rfl
  last := rfl
  tailcopy := by simp [State.initial]
  values := rfl
  completed := rfl
  producer := trivial
  consumer := trivial

variable {s : State T}

theorem State.ProducerInv.frame {spare chain spare' : List Nat} {value : Nat → Option T} {tail : Nat}
    {consumer : Consumer} {popped : List T} (inv : s.ProducerInv spare chain)
    (same : ∀ n, n ∉ chain → value n = s.value n) (grows : ∀ n ∈ spare, n ∈ spare') :
    State.ProducerInv
      { s with value := value, tail := tail, consumer := consumer, popped := popped } spare' chain := by
  cases at_ : s.producer with simp only [State.ProducerInv, at_] at inv ⊢
  | loadedFirst v n | atTailcopy v n next | storedFirst v n | cleared v n | linked v n => exact inv
  | reusing v n next =>
    obtain ⟨first, next, mem, ne⟩ := inv
    exact ⟨first, next, grows n mem, ne⟩
  | allocated v n =>
    obtain ⟨detached, last, holds⟩ := inv
    exact ⟨detached, last, (same n detached.1).trans holds⟩
  | loadedHead v h n =>
    obtain ⟨head, detached, last, holds⟩ := inv
    exact ⟨head, detached, last, (same n detached.1).trans holds⟩

theorem State.ConsumerInv.concat {rest : List Nat} (inv : s.ConsumerInv rest) (n : Nat) :
    s.ConsumerInv (rest ++ [n]) := by
  cases at_ : s.consumer with simp only [State.ConsumerInv, at_] at inv ⊢
  | loadedTail t => exact inv
  | found m | taken m => rw [List.head?_append, inv, Option.some_or]

theorem State.ConsumerInv.full_concat {rest : List Nat} (inv : s.ConsumerInv rest)
    (n : Nat) : s.full (rest ++ [n]) = s.full rest ++ [n] := by
  cases at_ : s.consumer with simp only [State.ConsumerInv, State.full, at_] at inv ⊢
  | taken m =>
    obtain ⟨rest, rfl⟩ := List.head?_eq_some_iff.1 inv
    rfl

namespace State.Inv
variable {s s' : State T} {spare rest : List Nat}

theorem push (inv : s.Inv spare rest) {v : T} (pushed : s.push v = some s') : s'.Inv spare rest := by
  cases at_ : s.producer with
    simp only [State.push, at_, reduceCtorEq, Option.some.injEq] at pushed
  | idle =>
    subst pushed
    exact { inv with
      last := by simpa [State.last, at_] using inv.last
      completed := by simpa [State.returning, at_] using inv.completed
      producer := rfl }

theorem goConsumer (inv : s.Inv spare rest) (moved : s.goConsumer = some s') :
    ∃ spare' rest', s'.Inv spare' rest' := by
  have stands := inv.consumer
  have values := inv.values
  cases at_ : s.consumer with
    simp only [State.goConsumer, State.ConsumerInv, State.full, at_] at moved stands values
  | returned b =>
    obtain rfl := Option.some.inj moved
    exact ⟨spare, rest, { inv with values := values, consumer := rfl }⟩
  | loadedTail t =>
    subst stands
    have next := inv.chain.of_append.next_eq
    obtain rfl := Option.some.inj moved
    refine ⟨spare, rest, ?_⟩
    cases head : rest.head? with
    | none =>
      rw [head] at next
      simp only [next]
      exact { inv with values := values, consumer := trivial }
    | some n =>
      rw [head] at next
      simp only [next]
      exact { inv with values := values, consumer := head }
  | found n =>
    obtain ⟨rest, rfl⟩ := List.head?_eq_some_iff.1 stands
    simp only [Option.bind_eq_bind, Option.bind_eq_some_iff, Option.pure_def, Option.some.injEq] at moved
    obtain ⟨v, value, rfl⟩ := moved
    have notMem : n ∉ rest := (List.nodup_cons.1 (List.nodup_cons.1 (List.nodup_append.1 inv.nodup).2.1).2).1
    refine ⟨spare, n :: rest, { inv with values := ?_, producer := ?_, consumer := rfl }⟩
    · have same : rest.map (update s.value n none) = rest.map s.value :=
        List.map_congr_left fun a mem => update_of_ne (ne_of_mem_of_not_mem mem notMem) ..
      simp only [State.full, List.tail_cons, same, values, List.map_cons, value, List.map_append,
        List.append_assoc]
      rfl
    · refine inv.producer.frame (fun m outside => update_of_ne ?_ ..) fun m mem => mem
      rintro rfl
      simp at outside
  | taken n =>
    obtain ⟨rest, rfl⟩ := List.head?_eq_some_iff.1 stands
    obtain rfl := Option.some.inj moved
    have shift : spare ++ s.tail :: n :: rest = spare ++ [s.tail] ++ n :: rest := by simp
    refine ⟨spare ++ [s.tail], rest, ?_⟩
    exact { inv with
      chain := shift ▸ inv.chain
      nodup := shift ▸ inv.nodup
      bounded := shift ▸ inv.bounded
      first := shift ▸ inv.first
      last := shift ▸ inv.last
      tailcopy := List.mem_append_left _ inv.tailcopy
      values := values
      producer := shift ▸ inv.producer.frame (fun _ _ => rfl) fun m mem => List.mem_append_left _ mem
      consumer := trivial }

theorem full_subset {a : Nat} (mem : a ∈ s.full rest) : a ∈ rest := by
  cases at_ : s.consumer with simp only [State.full, at_] at mem
  | taken n => exact List.mem_of_mem_tail mem
  | returned b | loadedTail t | found n => exact mem

section
variable (inv : s.Inv spare rest)
include inv

theorem first_mem_spare (ne : s.first ≠ s.tail) : ∃ others, spare = s.first :: others := by
  have first := inv.first
  cases spare with
  | nil => exact absurd (Option.some.inj first).symm ne
  | cons a others =>
    obtain rfl : a = s.first := Option.some.inj first
    exact ⟨others, rfl⟩

theorem tailcopy_of_first (same : s.first = s.tail) : s.tailcopy = s.first := by
  have first := inv.first
  have nodup := inv.nodup
  cases spare with
  | nil => simpa [same] using inv.tailcopy
  | cons a others =>
    obtain rfl : a = s.first := Option.some.inj first
    simp [same] at nodup

theorem outside {n : Nat} (notMem : n ∉ spare ++ s.tail :: rest)
    (link : Option Nat) (v : Option T) :
    Chain (update s.next n link) (spare ++ s.tail :: rest) ∧
      s.pushed.map some = s.popped.map some ++ (s.full rest).map (update s.value n v) := by
  constructor
  · exact inv.chain.congr fun a mem => update_of_ne (ne_of_mem_of_not_mem mem notMem) ..
  · rw [inv.values]
    congr 1
    refine List.map_congr_left fun a mem => (update_of_ne ?_ ..).symm
    rintro rfl
    exact notMem (by simp [full_subset mem])

theorem goProducer (moved : s.goProducer = some s') : ∃ spare' rest', s'.Inv spare' rest' := by
  have stands := inv.producer
  have last := inv.last
  have completed := inv.completed
  cases at_ : s.producer with
    simp only [State.goProducer, State.ProducerInv, State.last, State.returning, at_, reduceCtorEq]
      at moved stands last completed
  | loadedFirst v n =>
    subst stands
    obtain rfl := Option.some.inj moved
    refine ⟨spare, rest, ?_⟩
    split
    · rename_i ne
      obtain ⟨others, rfl⟩ := inv.first_mem_spare fun same => ne (inv.tailcopy_of_first same).symm
      exact { inv with last := last, completed := completed, producer := ⟨rfl, rfl, by simp, ne⟩ }
    · exact { inv with last := last, completed := completed, producer := ⟨rfl, rfl⟩ }
  | atTailcopy v n next =>
    obtain ⟨rfl, rfl⟩ := stands
    split at moved <;> obtain rfl := Option.some.inj moved
    · rename_i ne
      obtain ⟨others, rfl⟩ := inv.first_mem_spare ne
      exact ⟨_, _, { inv with
        last := last, tailcopy := by simp, completed := completed
        producer := ⟨rfl, rfl, by simp, ne⟩ }⟩
    · have fresh : s.allocated ∉ spare ++ s.tail :: rest := fun mem => Nat.lt_irrefl _ (inv.bounded _ mem)
      obtain ⟨chain, values⟩ := inv.outside fresh none (some v)
      exact ⟨spare, rest, { inv with
        chain := chain
        bounded := fun a mem => Nat.lt_succ_of_lt (inv.bounded a mem)
        last := last
        tailcopy := by simp
        values := values
        completed := completed
        producer := ⟨⟨fresh, Nat.lt_succ_self _⟩, update_self .., update_self ..⟩ }⟩
  | reusing v n next =>
    obtain ⟨rfl, rfl, mem, ne⟩ := stands
    obtain ⟨others, rfl⟩ := inv.first_mem_spare fun same => ne (inv.tailcopy_of_first same).symm
    simp only [Option.bind_eq_bind, Option.bind_eq_some_iff, Option.pure_def, Option.some.injEq] at moved
    obtain ⟨f, next, rfl⟩ := moved
    have chain : Chain s.next (s.first :: (others ++ s.tail :: rest)) := inv.chain
    obtain ⟨notMem, nodup⟩ := List.nodup_cons.1 inv.nodup
    refine ⟨others, rest, { inv with
      chain := chain.tail
      nodup := nodup
      bounded := fun a mem => inv.bounded a (List.mem_cons_of_mem _ mem)
      first := chain.next_eq.symm.trans next
      last := ?_
      tailcopy := (List.mem_cons.1 inv.tailcopy).resolve_left ne.symm
      completed := completed
      producer := ⟨notMem, inv.bounded _ (List.mem_cons_self ..)⟩ }⟩
    rwa [List.cons_append, List.getLast?_cons_of_ne_nil (by simp)] at last
  | storedFirst v n =>
    obtain rfl := Option.some.inj moved
    obtain ⟨chain, -⟩ := inv.outside stands.1 none none
    exact ⟨spare, rest, { inv with
      chain := chain, last := last, completed := completed, producer := ⟨stands, update_self ..⟩ }⟩
  | cleared v n =>
    obtain rfl := Option.some.inj moved
    obtain ⟨-, values⟩ := inv.outside stands.1.1 none (some v)
    exact ⟨spare, rest, { inv with
      last := last, values := values, completed := completed
      producer := ⟨stands.1, stands.2, update_self ..⟩ }⟩
  | allocated v n =>
    obtain rfl := Option.some.inj moved
    exact ⟨spare, rest, { inv with last := last, completed := completed, producer := ⟨rfl, stands⟩ }⟩
  | loadedHead v h n =>
    obtain ⟨rfl, ⟨notMem, lt⟩, none, holds⟩ := stands
    obtain rfl := Option.some.inj moved
    obtain ⟨init, shape⟩ := List.getLast?_eq_some_iff.1 last
    have chain := inv.chain
    have nodup := inv.nodup
    rw [shape] at chain nodup notMem
    have longer : spare ++ s.tail :: (rest ++ [n]) = init ++ [s.head] ++ [n] := by
      rw [← shape]
      simp
    refine ⟨spare, rest ++ [n], { inv with
      chain := longer ▸ chain.concat nodup notMem none
      nodup := ?_
      bounded := ?_
      first := ?_
      last := by simp [longer, State.last]
      values := ?_
      completed := by simpa [State.returning] using completed
      producer := ⟨init, by simp [longer]⟩
      consumer := ?_ }⟩
    · rw [longer, List.nodup_append_comm]
      exact List.nodup_cons.2 ⟨notMem, nodup⟩
    · intro a mem
      rw [longer, ← shape, List.mem_append, List.mem_singleton] at mem
      rcases mem with mem | rfl
      · exact inv.bounded a mem
      · exact lt
    · have first := inv.first
      rw [longer, ← shape, List.head?_append, first]
      rfl
    · have values := inv.values
      have full := inv.consumer.full_concat n
      simp only [State.full] at values full ⊢
      rw [full, List.map_append, List.map_append, List.map_singleton, List.map_singleton, holds, values,
        List.append_assoc]
    · exact inv.consumer.concat n
  | linked v n =>
    obtain rfl := Option.some.inj moved
    refine ⟨spare, rest, { inv with last := last, completed := ?_, producer := trivial }⟩
    simpa [State.returning] using completed

end

theorem of_reachable (reachable : StateReachable s) : ∃ spare rest, s.Inv spare rest := by
  refine reachable.invariant (fun s => ∃ spare rest, s.Inv spare rest)
    (fun s start => ⟨[], [], start ▸ initial⟩) fun s s' ⟨spare, rest, inv⟩ step => ?_
  cases step with
  | act a acted =>
    cases a with
    | push v => exact ⟨spare, rest, inv.push acted⟩
    | goProducer => exact inv.goProducer acted
    | goConsumer => exact inv.goConsumer acted

theorem popped_prefix (inv : s.Inv spare rest) : s.popped <+: s.pushed := by
  have shorter : s.popped.map some <+: s.pushed.map some := ⟨_, inv.values.symm⟩
  have same := List.prefix_iff_eq_take.1 shorter
  rw [List.length_map, ← List.map_take] at same
  rw [List.map_injective_iff.2 (Option.some_injective T) same]
  exact List.take_prefix ..

theorem last_cases (inv : s.Inv spare rest) : (spare ++ s.tail :: rest).getLast? = some s.head ∨
      ∃ v n, s.producer = .linked v n ∧ [s.head, n] <:+ spare ++ s.tail :: rest := by
  have stands := inv.producer
  have last := inv.last
  cases at_ : s.producer with simp only [State.ProducerInv, State.last, at_] at stands last
  | linked v n => exact .inr ⟨v, n, rfl, stands⟩
  | idle | loadedFirst v n | atTailcopy v n next | reusing v n next | storedFirst v n | cleared v n
  | allocated v n | loadedHead v h n => exact .inl last

theorem reaches_iff (inv : s.Inv spare rest) (n : Nat) :
    Relation.ReflTransGen (fun a b => s.next a = some b) s.tail n ↔ n ∈ s.tail :: rest :=
  inv.chain.of_append.reaches_iff

end State.Inv

/-- The node that `alloc_node` took from the front of the chain, until it is linked again, or the node
that it allocated. -/
def State.handedOut (s : State T) : Option Nat :=
  match s.producer with
  | .reusing _ n _ | .storedFirst _ n | .cleared _ n | .allocated _ n | .loadedHead _ _ n => some n
  | .idle | .loadedFirst .. | .atTailcopy .. | .linked .. => none

variable {spare rest : List Nat}

theorem State.Inv.handedOut_unreachable
    (inv : s.Inv spare rest) {n : Nat} (handed : s.handedOut = some n) : n ∉ s.tail :: rest := by
  have stands := inv.producer
  have detached (apart : s.Detached (spare ++ s.tail :: rest) n) : n ∉ s.tail :: rest :=
    fun mem => apart.1 (List.mem_append_right _ mem)
  cases at_ : s.producer with
    simp only [State.handedOut, State.ProducerInv, at_, Option.some.injEq, reduceCtorEq]
      at handed stands
  | reusing v m next =>
    subst handed
    intro mem
    exact (List.nodup_append.1 inv.nodup).2.2 m stands.2.2.1 m mem rfl
  | storedFirst v m => exact detached (handed ▸ stands)
  | cleared v m | allocated v m => exact detached (handed ▸ stands.1)
  | loadedHead v h m => exact detached (handed ▸ stands.2.1)

theorem State.Inv.goProducer_isSome (inv : s.Inv spare rest) : s.producer = .idle ∨ s.goProducer.isSome := by
  have stands := inv.producer
  cases at_ : s.producer with simp only [State.goProducer, State.ProducerInv, at_] at stands ⊢
  | idle => exact .inl trivial
  | atTailcopy v n next =>
    right
    split <;> rfl
  | reusing v n next =>
    obtain ⟨rfl, rfl, mem, ne⟩ := stands
    obtain ⟨others, rfl⟩ := inv.first_mem_spare fun same => ne (inv.tailcopy_of_first same).symm
    have next := Chain.next_eq (a := s.first) (l := others ++ s.tail :: rest) inv.chain
    rw [List.head?_append, List.head?_cons] at next
    cases others.head? <;> simp [next]
  | loadedFirst v n | storedFirst v n | cleared v n | allocated v n | loadedHead v h n | linked v n =>
    exact .inr rfl

theorem State.Inv.goConsumer_isSome (inv : s.Inv spare rest) : s.goConsumer.isSome := by
  have stands := inv.consumer
  have values := inv.values
  cases at_ : s.consumer with
    simp only [State.goConsumer, State.ConsumerInv, State.full, at_] at stands values ⊢
  | found n =>
    obtain ⟨rest, rfl⟩ := List.head?_eq_some_iff.1 stands
    have mem : s.value n ∈ s.pushed.map some := by simp [values]
    obtain ⟨v, -, value⟩ := List.mem_map.1 mem
    simp [← value]
  | returned b | loadedTail t | taken n => rfl

theorem spscQueue_recycling {s : State T} (reachable : StateReachable s) :
    s.popped <+: s.pushed ∧ s.completed <+: s.pushed ∧
    (∃ spare rest, Chain s.next (spare ++ s.tail :: rest) ∧ (spare ++ s.tail :: rest).Nodup ∧
      (spare ++ s.tail :: rest).head? = some s.first ∧ s.tailcopy ∈ spare ++ [s.tail] ∧
      ((spare ++ s.tail :: rest).getLast? = some s.head ∨
        ∃ v n, s.producer = .linked v n ∧ [s.head, n] <:+ spare ++ s.tail :: rest) ∧
      ∀ v n next, s.producer = .reusing v n next → n ∈ spare) ∧
    (∀ n, s.handedOut = some n → ¬Relation.ReflTransGen (fun a b => s.next a = some b) s.tail n) ∧
    (∀ t s', s.consumer = .loadedTail t → s.goConsumer = some s' → s'.consumer = .returned false →
      s.popped = s.pushed) ∧
    (s.producer = .idle ∨ s.goProducer.isSome) ∧ s.goConsumer.isSome := by
  obtain ⟨spare, rest, inv⟩ := State.Inv.of_reachable reachable
  refine ⟨inv.popped_prefix, ⟨_, inv.completed.symm⟩, ⟨spare, rest, inv.chain, inv.nodup, inv.first,
    inv.tailcopy, inv.last_cases, fun v n next reusing => ?_⟩, fun n handed => ?_,
    fun t s' loaded moved empty => ?_, inv.goProducer_isSome, inv.goConsumer_isSome⟩
  · have stands := inv.producer
    simp only [State.ProducerInv, reusing] at stands
    exact stands.2.2.1
  · rw [inv.reaches_iff]
    exact inv.handedOut_unreachable handed
  · have stands := inv.consumer
    have values := inv.values
    simp only [State.ConsumerInv, State.full, State.goConsumer, loaded, Option.some.injEq]
      at stands values moved
    subst stands moved
    have next := inv.chain.of_append.next_eq
    cases rest with
    | nil =>
      rw [List.map_nil, List.append_nil] at values
      exact (List.map_injective_iff.2 (Option.some_injective T) values).symm
    | cons n rest =>
      simp [next] at empty

/-- The consumer has popped the value of a push before the push stores `_head`. -/
theorem spscQueue_tail_passes_head : ∃ s : State Nat, StateReachable s ∧
    ¬Relation.ReflTransGen (fun a b => s.next a = some b) s.tail s.head := by
  have run : (List.foldlM State.act State.initial [Action.push 5, .goProducer, .goProducer,
      .goProducer, .goProducer, .goConsumer, .goConsumer, .goConsumer, .goConsumer]).any
        (fun s => s.tail == 1 && s.head == 0 && s.next 1 == none) := by decide +kernel
  obtain ⟨s, moved, passed⟩ := (Option.any_eq_true ..).1 run
  simp only [Bool.and_eq_true, beq_iff_eq] at passed
  obtain ⟨⟨tail, head⟩, next⟩ := passed
  refine ⟨s, Reachable.foldlM (fun a _ _ _ acted => .act a acted) (.initial rfl) moved, ?_⟩
  rw [tail, head, Relation.reflTransGen_iff_eq (by simp [next])]
  decide

theorem spscQueue_recycling_reused : ∃ s : State Nat, s.handedOut = some 0 ∧ s.popped = [5] ∧ s.pushed = [5] ∧
      ¬Relation.ReflTransGen (fun a b => s.next a = some b) s.tail 0 := by
  have run : (List.foldlM State.act State.initial [Action.push 5, .goProducer, .goProducer,
      .goProducer, .goProducer, .goProducer, .goConsumer, .goConsumer, .goConsumer, .goConsumer,
      .push 6, .goProducer, .goProducer]).any
        (fun s => s.handedOut == some 0 && s.popped == [5] && s.pushed == [5]) := by decide +kernel
  obtain ⟨s, moved, reused⟩ := (Option.any_eq_true ..).1 run
  simp only [Bool.and_eq_true, beq_iff_eq] at reused
  have reachable : StateReachable s :=
    Reachable.foldlM (fun a _ _ _ acted => .act a acted) (.initial rfl) moved
  exact ⟨s, reused.1.1, reused.1.2, reused.2, (spscQueue_recycling reachable).2.2.2.1 0 reused.1.1⟩

end

end Prpc.SpscQueue
