import Mathlib.Logic.Function.Basic
import Prpc.Lib.Transition

/-!
A push exchanges the head for its node and then links the node to the one before it. Between the two
the nodes from there on are out of the consumer's reach. Nodes are numbered in the order of the
exchange, with number 0 for the node that the constructor makes.
-/

namespace Prpc

structure MpscQueue (T : Type) where
  /-- the values of the nodes from number 1 on -/
  nodes : List T
  next : Nat → Option Nat
  tail : Nat
  head : Nat

namespace MpscQueue

variable {T : Type} {q q' : MpscQueue T} {v : T}

def empty : MpscQueue T := ⟨[], fun _ => none, 0, 0⟩

def exchange (q : MpscQueue T) (v : T) : MpscQueue T × Nat × Nat :=
  let n := q.nodes.length + 1
  ({ q with nodes := q.nodes ++ [v], head := n }, q.head, n)

def link (q : MpscQueue T) (prev n : Nat) : MpscQueue T :=
  { q with next := Function.update q.next prev (some n) }

def pop (q : MpscQueue T) : Option (T × MpscQueue T) := do
  let n ← q.next q.tail
  return (← q.nodes[n - 1]?, { q with tail := n })

structure Linked (q : MpscQueue T) : Prop where
  head : q.head = q.nodes.length
  next : ∀ k n, q.next k = some n → n = k + 1 ∧ n ≤ q.nodes.length
  tail : q.tail ≤ q.nodes.length

theorem Linked.empty : Linked (empty : MpscQueue T) := ⟨rfl, nofun, Nat.le_refl 0⟩

section
variable (linked : Linked q)
include linked

theorem Linked.exchange (v : T) : Linked (q.exchange v).1 where
  head := by simp [MpscQueue.exchange]
  next k n eq := by
    obtain ⟨same, le⟩ := linked.next k n eq
    refine ⟨same, ?_⟩
    simp only [MpscQueue.exchange, List.length_append, List.length_singleton]
    omega
  tail := by
    have := linked.tail
    simp only [MpscQueue.exchange, List.length_append, List.length_singleton]
    omega

theorem Linked.link {prev n : Nat} (after : n = prev + 1)
    (le : n ≤ q.nodes.length) : Linked (q.link prev n) where
  head := linked.head
  next k m eq := by
    by_cases same : k = prev
    · subst same
      obtain rfl : n = m := by simpa [MpscQueue.link] using eq
      exact ⟨after, le⟩
    · simp only [MpscQueue.link, Function.update_of_ne same] at eq
      exact linked.next k m eq
  tail := linked.tail

theorem Linked.pop_some (popped : q.pop = some (v, q')) :
    q' = { q with tail := q.tail + 1 } ∧ q.nodes[q.tail]? = some v ∧ Linked q' := by
  simp only [pop, Option.bind_eq_bind, Option.bind_eq_some_iff, Option.pure_def, Option.some.injEq,
    Prod.mk.injEq] at popped
  obtain ⟨n, next, v', value, rfl, rfl⟩ := popped
  obtain ⟨rfl, le⟩ := linked.next _ _ next
  exact ⟨rfl, value, linked.head, linked.next, le⟩

theorem Linked.pop_none : q.pop = none ↔ q.next q.tail = none := by
  cases next : q.next q.tail with
  | none => simp [pop, next]
  | some n =>
    obtain ⟨rfl, le⟩ := linked.next _ _ next
    have value : q.nodes[q.tail + 1 - 1]? = some q.nodes[q.tail] := List.getElem?_eq_getElem le
    simp only [pop, next, value, Option.bind_eq_bind, Option.bind_some, Option.pure_def, reduceCtorEq]

end

inductive Producer where
  | idle
  | linking (prev n : Nat)
  deriving DecidableEq

inductive Consumer where
  | returned (popped : Bool)
  | found (t next : Nat)
  | advanced (t : Nat)
  deriving DecidableEq

structure System (ι T : Type) where
  queue : MpscQueue T
  producers : ι → Producer
  consumer : Consumer
  freed : Nat → Bool
  popped : List T

namespace System
variable {ι : Type} {s s' : System ι T} {i : ι}

def initial : System ι T := ⟨.empty, fun _ => .idle, .returned false, fun _ => false, []⟩

def goConsumer (s : System ι T) : Option (System ι T) :=
  match s.consumer with
  | .returned _ =>
    some { s with
      consumer := match s.queue.next s.queue.tail with
        | some next => .found s.queue.tail next
        | none => .returned false }
  | .found t next => do
    let v ← s.queue.nodes[next - 1]?
    return { s with
      queue := { s.queue with tail := next }, popped := s.popped ++ [v], consumer := .advanced t }
  | .advanced t =>
    some { s with freed := Function.update s.freed t true, consumer := .returned true }

variable [DecidableEq ι]

def push (s : System ι T) (i : ι) (v : T) : Option (System ι T) :=
  match s.producers i with
  | .linking .. => none
  | .idle =>
    let (queue, prev, n) := s.queue.exchange v
    some { s with queue := queue, producers := Function.update s.producers i (.linking prev n) }

def goProducer (s : System ι T) (i : ι) : Option (System ι T) :=
  match s.producers i with
  | .idle => none
  | .linking prev n =>
    some { s with
      queue := s.queue.link prev n, producers := Function.update s.producers i .idle }

end System

inductive Action (ι T : Type) where
  | push (i : ι) (v : T)
  | goProducer (i : ι)
  | goConsumer

section
variable {ι : Type} [DecidableEq ι]

def System.act (s : System ι T) : Action ι T → Option (System ι T)
  | .push i v => s.push i v
  | .goProducer i => s.goProducer i
  | .goConsumer => s.goConsumer

inductive Step : System ι T → System ι T → Prop
  | act {s s' : System ι T} (a : Action ι T) (acted : s.act a = some s') : Step s s'

abbrev SystemReachable : System ι T → Prop := Lib.Reachable (· = System.initial) Step

end

/-- Every node up to the tail is linked, and each missing link beyond is about to be stored by one
producer. -/
structure System.Inv {ι : Type} (s : System ι T) : Prop where
  linked : Linked s.queue
  behind : ∀ k < s.queue.tail, s.queue.next k = some (k + 1)
  missing : ∀ k < s.queue.nodes.length, s.queue.next k = none → ∃ i, s.producers i = .linking k (k + 1)
  linking : ∀ i prev n, s.producers i = .linking prev n →
    n = prev + 1 ∧ n ≤ s.queue.nodes.length ∧ s.queue.next prev = none
  single : ∀ i j prev n m, s.producers i = .linking prev n → s.producers j = .linking prev m → i = j
  popped : s.popped = s.queue.nodes.take s.queue.tail
  freed : ∀ k, s.freed k → k < s.queue.tail
  found : ∀ t n, s.consumer = .found t n → t = s.queue.tail ∧ s.queue.next t = some n
  advanced : ∀ t, s.consumer = .advanced t → t < s.queue.tail

namespace System.Inv
variable {ι : Type} {s s' : System ι T} {i j : ι} {prev n : Nat}

theorem initial : System.Inv (System.initial : System ι T) where
  linked := Linked.empty
  behind := nofun
  missing := nofun
  linking := nofun
  single := nofun
  popped := rfl
  freed := nofun
  found := nofun
  advanced := nofun

theorem next_last (inv : s.Inv) : s.queue.next s.queue.nodes.length = none := by
  cases next : s.queue.next s.queue.nodes.length with
  | none => rfl
  | some n =>
    have := inv.linked.next _ _ next
    omega

theorem tail_le_of_next (inv : s.Inv) {k : Nat} (none : s.queue.next k = none) : s.queue.tail ≤ k := by
  by_contra lt
  rw [inv.behind k (by omega)] at none
  cases none

theorem goConsumer (inv : s.Inv) (moved : s.goConsumer = some s') : s'.Inv := by
  cases consumer : s.consumer with simp only [System.goConsumer, consumer] at moved
  | returned b =>
    cases next : s.queue.next s.queue.tail with
      (simp only [next, Option.some.injEq] at moved; subst moved)
    | none => exact { inv with found := nofun, advanced := nofun }
    | some n =>
      refine { inv with found := ?_, advanced := nofun }
      rintro _ _ ⟨⟩
      exact ⟨rfl, next⟩
  | found t n =>
    obtain ⟨rfl, next⟩ := inv.found t n consumer
    obtain ⟨rfl, le⟩ := inv.linked.next _ _ next
    simp only [Nat.add_sub_cancel, Option.bind_eq_bind, Option.bind_eq_some_iff,
      Option.pure_def, Option.some.injEq] at moved
    obtain ⟨v, value, rfl⟩ := moved
    refine { inv with
      linked := ⟨inv.linked.head, inv.linked.next, le⟩
      behind := fun k lt => ?_
      popped := ?_
      freed := fun k freed => Nat.lt_succ_of_lt (inv.freed k freed)
      found := nofun
      advanced := ?_ }
    · rcases Nat.lt_succ_iff_lt_or_eq.1 lt with lt | rfl
      · exact inv.behind k lt
      · exact next
    · rw [List.take_add_one, ← inv.popped, value]
      rfl
    · rintro _ ⟨⟩
      exact Nat.lt_succ_self _
  | advanced t =>
    have before := inv.advanced t consumer
    obtain rfl := Option.some.inj moved
    refine { inv with freed := fun k freed => ?_, found := nofun, advanced := nofun }
    by_cases same : k = t
    · exact same ▸ before
    · exact inv.freed k ((Function.update_of_ne same ..).symm.trans freed)

variable [DecidableEq ι]

theorem update_eq_linking {producers : ι → Producer} {new : Producer}
    (at_ : Function.update producers i new j = .linking prev n) :
    j = i ∧ new = .linking prev n ∨ j ≠ i ∧ producers j = .linking prev n := by
  by_cases same : j = i
  · subst same
    rw [Function.update_self] at at_
    exact .inl ⟨rfl, at_⟩
  · rw [Function.update_of_ne same] at at_
    exact .inr ⟨same, at_⟩

theorem push (inv : s.Inv) (pushed : s.push i v = some s') : s'.Inv := by
  cases idle : s.producers i with
    simp only [System.push, idle, reduceCtorEq, Option.some.injEq, MpscQueue.exchange,
      inv.linked.head] at pushed
  | idle =>
    subst pushed
    have cases {j : ι} {prev n : Nat}
        (at_ : Function.update s.producers i
          (.linking s.queue.nodes.length (s.queue.nodes.length + 1)) j = .linking prev n) :
        j = i ∧ prev = s.queue.nodes.length ∧ n = prev + 1 ∨
          s.producers j = .linking prev n ∧ n = prev + 1 ∧ n ≤ s.queue.nodes.length := by
      rcases update_eq_linking at_ with ⟨same, new⟩ | ⟨-, old⟩
      · cases new
        exact .inl ⟨same, rfl, rfl⟩
      · obtain ⟨after, le, -⟩ := inv.linking j prev n old
        exact .inr ⟨old, after, le⟩
    refine { inv with
      linked := inv.linked.exchange v
      missing := fun k lt none => ?_
      linking := fun j prev n at_ => ?_
      single := fun j j' prev n m at_ at' => ?_
      popped := ?_ }
    · simp only [List.length_append, List.length_singleton] at lt
      rcases Nat.lt_succ_iff_lt_or_eq.1 lt with lt | rfl
      · obtain ⟨j, at_⟩ := inv.missing k lt none
        have ne : j ≠ i := by
          rintro rfl
          rw [idle] at at_
          cases at_
        exact ⟨j, (Function.update_of_ne ne ..).trans at_⟩
      · exact ⟨i, Function.update_self ..⟩
    · simp only [List.length_append, List.length_singleton]
      rcases cases at_ with ⟨-, rfl, rfl⟩ | ⟨at_, after, le⟩
      · exact ⟨rfl, Nat.le_refl _, inv.next_last⟩
      · exact ⟨after, Nat.le_succ_of_le le, (inv.linking j prev n at_).2.2⟩
    · rcases cases at_ with ⟨rfl, eq, -⟩ | ⟨at_, after, le⟩ <;>
        rcases cases at' with ⟨rfl, eq', -⟩ | ⟨at', after', le'⟩
      · rfl
      · omega
      · omega
      · exact inv.single j j' prev n m at_ at'
    · rw [inv.popped, List.take_append_of_le_length inv.linked.tail]

theorem goProducer (inv : s.Inv) (moved : s.goProducer i = some s') : s'.Inv := by
  cases at_ : s.producers i with
    simp only [System.goProducer, at_, reduceCtorEq, Option.some.injEq] at moved
  | linking prev n =>
    subst moved
    obtain ⟨rfl, le, unlinked⟩ := inv.linking i prev n at_
    have others {j : ι} {p m : Nat} (linking : Function.update s.producers i .idle j = .linking p m) :
        j ≠ i ∧ s.producers j = .linking p m := by
      rcases update_eq_linking linking with ⟨-, idle⟩ | other
      · cases idle
      · exact other
    have keep {k : Nat} (ne : k ≠ prev) : (s.queue.link prev (prev + 1)).next k = s.queue.next k :=
      Function.update_of_ne ne ..
    refine { inv with
      linked := inv.linked.link rfl le
      behind := fun k lt => ?_
      missing := fun k lt none => ?_
      linking := fun j p m linking => ?_
      single := fun j j' p m m' linking linking' =>
        inv.single j j' p m m' (others linking).2 (others linking').2
      found := fun t m consumer => ?_ }
    · by_cases same : k = prev
      · subst same
        exact Function.update_self ..
      · exact (keep same).trans (inv.behind k lt)
    · by_cases same : k = prev
      · subst same
        simp [MpscQueue.link] at none
      · obtain ⟨j, linking⟩ := inv.missing k lt ((keep same).symm.trans none)
        have ne : j ≠ i := by
          rintro rfl
          rw [at_, Producer.linking.injEq] at linking
          exact same linking.1.symm
        exact ⟨j, (Function.update_of_ne ne ..).trans linking⟩
    · obtain ⟨other, old⟩ := others linking
      obtain ⟨after, le, none⟩ := inv.linking j p m old
      refine ⟨after, le, (keep ?_).trans none⟩
      rintro rfl
      exact other (inv.single j i p m (p + 1) old at_)
    · obtain ⟨same, next⟩ := inv.found t m consumer
      refine ⟨same, (keep ?_).trans next⟩
      rintro rfl
      rw [unlinked] at next
      cases next

theorem of_reachable (reachable : SystemReachable s) : s.Inv := by
  refine reachable.invariant _ (fun s start => start ▸ initial) fun s s' inv step => ?_
  cases step with
  | act a acted =>
    cases a with
    | push i v => exact inv.push acted
    | goProducer i => exact inv.goProducer acted
    | goConsumer => exact inv.goConsumer acted

end System.Inv

theorem Linked.segment (linked : Linked q) {k : Nat} (le : k ≤ q.nodes.length) :
    ∃ last, k ≤ last ∧ last ≤ q.nodes.length ∧
      ∀ n, Relation.ReflTransGen (fun a b => q.next a = some b) k n ↔ k ≤ n ∧ n ≤ last := by
  induction d : q.nodes.length - k generalizing k with
  | zero =>
    obtain rfl : k = q.nodes.length := by omega
    refine ⟨_, Nat.le_refl _, Nat.le_refl _, fun n => ?_⟩
    rw [Relation.reflTransGen_iff_eq]
    · omega
    · intro b next
      have := linked.next _ _ next
      omega
  | succ d ih =>
    cases next : q.next k with
    | none =>
      refine ⟨k, Nat.le_refl _, le, fun n => ?_⟩
      rw [Relation.reflTransGen_iff_eq (by simp [next])]
      omega
    | some m =>
      obtain ⟨rfl, bound⟩ := linked.next _ _ next
      obtain ⟨last, after, inside, leads⟩ := ih bound (by omega)
      refine ⟨last, by omega, inside, fun n => ?_⟩
      rw [Relation.ReflTransGen.cases_head_iff]
      simp only [next, Option.some.injEq, exists_eq_left', leads]
      omega

section
variable {ι : Type} [DecidableEq ι] {s : System ι T}

theorem mpscQueue_order (reachable : SystemReachable s) :
    (∃ last, s.queue.tail ≤ last ∧ last ≤ s.queue.nodes.length ∧
      ∀ n, Relation.ReflTransGen (fun a b => s.queue.next a = some b) s.queue.tail n ↔
        s.queue.tail ≤ n ∧ n ≤ last) ∧
    s.popped <+: s.queue.nodes ∧
    (∀ s' b, s.consumer = .returned b → s.goConsumer = some s' → s'.consumer = .returned false →
      s.popped = s.queue.nodes ∨ ∃ i, s.producers i = .linking s.popped.length (s.popped.length + 1)) ∧
    ∀ i prev n, s.producers i = .linking prev n → s.freed prev = false := by
  have inv := System.Inv.of_reachable reachable
  have count : s.popped.length = s.queue.tail := by
    rw [inv.popped, List.length_take_of_le inv.linked.tail]
  refine ⟨inv.linked.segment inv.linked.tail, ?_, fun s' b ready moved empty => ?_,
    fun i prev n linking => ?_⟩
  · rw [inv.popped]
    exact List.take_prefix ..
  · cases next : s.queue.next s.queue.tail with
      (simp only [System.goConsumer, ready, next, Option.some.injEq] at moved; subst moved)
    | none =>
      rw [count]
      rcases Nat.lt_or_eq_of_le inv.linked.tail with lt | eq
      · exact .inr (inv.missing _ lt next)
      · rw [inv.popped, eq, List.take_length]
        exact .inl rfl
    | some n => cases empty
  · have after := inv.tail_le_of_next (inv.linking i prev n linking).2.2
    rw [Bool.eq_false_iff]
    intro freed
    have := inv.freed prev freed
    omega

end

theorem mpscQueue_order_unlinked : ∃ s : System Bool Nat,
    s.queue.nodes = [1, 2] ∧ s.popped = [1] ∧ s.popped <+: s.queue.nodes := by
  have run : (List.foldlM System.act System.initial [Action.push false 1, .push true 2,
      .goProducer false, .goConsumer, .goConsumer]).any (fun s : System Bool Nat =>
        s.queue.nodes == [1, 2] && s.popped == [1]) := by decide +kernel
  obtain ⟨s, moved, pops⟩ := (Option.any_eq_true ..).1 run
  rw [Bool.and_eq_true, beq_iff_eq, beq_iff_eq] at pops
  have reachable : SystemReachable s :=
    Lib.Reachable.foldlM (fun a _ _ _ acted => .act a acted) (.initial rfl) moved
  exact ⟨s, pops.1, pops.2, (mpscQueue_order reachable).2.1⟩

end MpscQueue

end Prpc
