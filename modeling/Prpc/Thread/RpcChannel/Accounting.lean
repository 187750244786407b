import Mathlib.Data.Finset.Interval
import Mathlib.Order.Interval.Finset.Nat
import Prpc.Thread.RpcChannel.Model

namespace Prpc.RpcChannel
open Lib

variable {ι T : Type}

namespace Sender

def node : Sender → Option Nat
  | idle => none
  | linking _ n | adding n | writing n => some n

def unadded : Sender → Bool
  | linking .. | adding _ => true
  | _ => false

def owing : Sender → Bool
  | writing _ => true
  | _ => false

end Sender

namespace Receiver

def lead : Receiver T → Int
  | popped .. => -1
  | reading | loading | popping _ | polling _ | undoing _ | pollReading _ | pollPopping _ => 1
  | _ => 0

def taken : Receiver T → Nat
  | loading => 1
  | _ => 0

def awaits : Receiver T → Bool
  | absorbing .. | reading | loading | polling _ | undoing _ | pollReading _ => true
  | _ => false

def short : Receiver T → Bool
  | absorbing .. | reading | loading | polling _ | undoing _ => true
  | _ => false

def held : Receiver T → List T
  | popped _ item | absorbing _ item => [item]
  | _ => []

def Timely (use : Use) : Receiver T → Prop
  | spinning timeout _ | popped timeout _ | absorbing timeout _ =>
    timeout = -1 ∨ timeout = 0 ∨ use = .timed ∧ 0 < timeout
  | subtracting timeout | popping timeout => timeout = -1 ∨ use = .timed ∧ 0 < timeout
  | polling timeout | undoing timeout | pollReading timeout | pollPopping timeout =>
    use = .timed ∧ 0 < timeout
  | failed => False
  | idle | reading | loading | returned .. => True

end Receiver

/-- `_size` and the tokens, with the numbers of nodes, of pops, and of sends without their addition
or their token. -/
structure Sums (nodes tail : Nat) (size : Int) (tokens unadded owing terminates : Nat)
    (r : Receiver T) : Prop where
  account : size + tail + r.lead + unadded = nodes
  low : -1 ≤ size
  short : size = -1 → r.short = true
  due : r.awaits = true → 0 ≤ size → tokens + owing + r.taken = terminates + 1
  paid : r.awaits = false ∨ size < 0 → tokens + owing + r.taken = terminates

def Owned (nodes : List (ι × T)) (senders : ι → Sender) : Prop :=
  ∀ i n, (senders i).node = some n → 0 < n ∧ (nodes[n - 1]?).map Prod.fst = some i

structure Inv [Fintype ι] (use : Use) (s : State ι T) : Prop where
  linked : s.queue.Linked
  owned : Owned s.queue.nodes s.senders
  linking : ∀ i prev n, s.senders i = .linking prev n → n = prev + 1
  received : s.received ++ s.receiver.held = s.queue.nodes.take s.queue.tail
  timely : s.receiver.Timely use
  calls : use ≠ .terminated → s.terminates = 0
  stopped : s.receiver = .returned (-1) none → 0 < s.terminates
  sums : s.receiver ≠ .returned (-1) none →
    Sums s.queue.nodes.length s.queue.tail s.size s.tokens (count Sender.unadded s.senders)
      (count Sender.owing s.senders) s.terminates s.receiver

theorem Owned.node_le {nodes : List (ι × T)} {senders : ι → Sender} (owned : Owned nodes senders)
    {i : ι} {n : Nat} (node : (senders i).node = some n) : n ≤ nodes.length := by
  obtain ⟨pos, owner⟩ := owned i n node
  rw [Option.map_eq_some_iff] at owner
  obtain ⟨x, at_, -⟩ := owner
  have := (List.getElem?_eq_some_iff.1 at_).1
  omega

theorem Owned.update [DecidableEq ι] {nodes : List (ι × T)} {senders : ι → Sender} (owned : Owned nodes senders)
    {i : ι} {pc : Sender} (same : ∀ n, pc.node = some n → (senders i).node = some n) :
    Owned nodes (Function.update senders i pc) := by
  intro j n node
  by_cases eq : j = i
  · subst eq
    rw [Function.update_self] at node
    exact owned j n (same n node)
  · rw [Function.update_of_ne eq] at node
    exact owned j n node

theorem Owned.exchange [DecidableEq ι] {nodes : List (ι × T)} {senders : ι → Sender} (owned : Owned nodes senders)
    (i : ι) (item : T) {pc : Sender} (new : pc.node = some (nodes.length + 1)) :
    Owned (nodes ++ [(i, item)]) (Function.update senders i pc) := by
  intro j n node
  by_cases eq : j = i
  · subst eq
    rw [Function.update_self, new, Option.some.injEq] at node
    subst node
    refine ⟨Nat.succ_pos _, ?_⟩
    rw [Nat.add_sub_cancel, List.getElem?_append_right (le_refl _), Nat.sub_self]
    rfl
  · rw [Function.update_of_ne eq] at node
    have le := owned.node_le node
    obtain ⟨pos, owner⟩ := owned j n node
    refine ⟨pos, ?_⟩
    rwa [List.getElem?_append_left (by omega)]

theorem linking_update [DecidableEq ι] {senders : ι → Sender} {i : ι} {pc : Sender}
    (linking : ∀ i prev n, senders i = .linking prev n → n = prev + 1)
    (new : ∀ prev n, pc = .linking prev n → n = prev + 1) :
    ∀ j prev n, Function.update senders i pc j = .linking prev n → n = prev + 1 := by
  intro j prev n eq
  by_cases same : j = i
  · subst same
    rw [Function.update_self] at eq
    exact new prev n eq
  · rw [Function.update_of_ne same] at eq
    exact linking j prev n eq

variable [Fintype ι] {use : Use} {s s' : State ι T}

theorem Inv.initial (use : Use) : Inv use (initial : State ι T) where
  linked := .empty
  owned := nofun
  linking := nofun
  received := rfl
  timely := trivial
  calls _ := rfl
  stopped := nofun
  sums _ := by
    have none : ∀ p : Sender → Bool, p .idle = false → count p (fun _ : ι => Sender.idle) = 0 :=
      fun p h => count_eq_zero.2 fun _ => h
    simp only [RpcChannel.initial, none Sender.unadded rfl, none Sender.owing rfl]
    exact ⟨rfl, by decide, nofun, nofun, fun _ => rfl⟩

theorem Inv.send [DecidableEq ι] (inv : Inv use s) {i : ι} {item : T} (acted : s.send i item = some s') :
    Inv use s' := by
  unfold State.send at acted
  split at acted
  · next idle =>
      cases acted
      have head := inv.linked.head
      have unadded := count_update Sender.unadded s.senders i
        (.linking s.queue.head (s.queue.nodes.length + 1))
      have owing := count_update Sender.owing s.senders i
        (.linking s.queue.head (s.queue.nodes.length + 1))
      rw [idle] at unadded owing
      simp only [Sender.unadded, Sender.owing, Bool.toNat_true, Bool.toNat_false] at unadded owing
      refine ⟨inv.linked.exchange _, inv.owned.exchange i item rfl,
        linking_update inv.linking fun prev n eq => ?_, ?_, inv.timely, inv.calls, inv.stopped,
        fun live => ?_⟩
      · cases eq
        rw [head]
      · have := inv.linked.tail
        simp only [State.setSender]
        rw [List.take_append_of_le_length this]
        exact inv.received
      · obtain ⟨account, low, short, due, paid⟩ := inv.sums live
        simp only [State.setSender, List.length_append, List.length_singleton]
        exact ⟨by omega, low, short, fun h h' => by have := due h h'; omega,
          fun h => by have := paid h; omega⟩
  · cases acted

theorem Inv.goSender [DecidableEq ι] (inv : Inv use s) {i : ι} (acted : s.goSender i = some s') : Inv use s' := by
  unfold State.goSender at acted
  have unadded := count_update Sender.unadded s.senders i
  have owing := count_update Sender.owing s.senders i
  cases pc : s.senders i with
  | idle =>
    rw [pc] at acted
    cases acted
  | linking prev n =>
    rw [pc] at acted
    cases acted
    have unadded := unadded (.adding n)
    have owing := owing (.adding n)
    rw [pc] at unadded owing
    simp only [Sender.unadded, Sender.owing, Bool.toNat_true, Bool.toNat_false] at unadded owing
    have le := inv.owned.node_le (i := i) (n := n) (by rw [pc]; rfl)
    refine ⟨inv.linked.link (inv.linking i prev n pc) le, inv.owned.update fun m h => ?_,
      linking_update inv.linking (by simp), inv.received, inv.timely, inv.calls, inv.stopped,
      fun live => ?_⟩
    · rw [pc]
      exact h
    · obtain ⟨account, low, short, due, paid⟩ := inv.sums live
      simp only [MpscQueue.link, State.setSender]
      exact ⟨by omega, low, short, fun h h' => by have := due h h'; omega, fun h => by have := paid h; omega⟩
  | adding n =>
    rw [pc] at acted
    cases acted
    have unadded := unadded (if s.size = -1 then .writing n else .idle)
    have owing := owing (if s.size = -1 then .writing n else .idle)
    rw [pc] at unadded owing
    refine ⟨inv.linked, inv.owned.update fun m h => ?_, linking_update inv.linking fun _ _ h => ?_,
      inv.received, inv.timely, inv.calls, inv.stopped, fun live => ?_⟩
    · rw [pc]
      split at h
      · exact h
      · cases h
    · split at h <;> cases h
    · obtain ⟨account, low, short, due, paid⟩ := inv.sums live
      simp only [State.setSender]
      by_cases empty : s.size = -1
      · -- The receiver waits, and this sender owes it the token.
        have awaits : s.receiver.awaits = true := by
          have := short empty
          cases r : s.receiver <;> rw [r] at this <;> first | rfl | cases this
        have before := paid (.inr (by omega))
        simp only [empty, if_true, Sender.unadded, Sender.owing, Bool.toNat_true,
          Bool.toNat_false] at unadded owing ⊢
        exact ⟨by omega, by omega, fun h => absurd h (by omega), fun _ _ => by omega, fun h => by
          rcases h with h | h
          · rw [awaits] at h
            cases h
          · omega⟩
      · simp only [empty, if_false, Sender.unadded, Sender.owing, Bool.toNat_true,
          Bool.toNat_false] at unadded owing ⊢
        exact ⟨by omega, by omega, fun h => absurd h (by omega),
          fun h _ => by have := due h (by omega); omega,
          fun h => by have := paid (h.imp id (by omega)); omega⟩
  | writing n =>
    rw [pc] at acted
    cases acted
    have unadded := unadded .idle
    have owing := owing .idle
    rw [pc] at unadded owing
    simp only [Sender.unadded, Sender.owing, Bool.toNat_true, Bool.toNat_false] at unadded owing
    refine ⟨inv.linked, inv.owned.update (by simp [Sender.node]), linking_update inv.linking (by simp), inv.received,
      inv.timely, inv.calls, inv.stopped, fun live => ?_⟩
    obtain ⟨account, low, short, due, paid⟩ := inv.sums live
    simp only [State.setSender]
    exact ⟨by omega, low, short, fun h h' => by have := due h h'; omega, fun h => by have := paid h; omega⟩

def ReadsDue (s : State ι T) : Action ι T → Prop
  | .goReceiver =>
    match s.receiver with
    | .absorbing .. => s.size ≠ -1
    | _ => True
  | _ => True

/-- Nothing was added to `_size` between the timeout of `poll` and the addition that undoes the
subtraction, and the one `pop` after a `poll` finds its item linked. -/
def TimedApart (s : State ι T) : Action ι T → Prop
  | .goReceiver =>
    match s.receiver with
    | .undoing _ => s.size = -1
    | .pollPopping _ => s.queue.next s.queue.tail ≠ none
    | _ => True
  | _ => True

def Use.Safe : Use → State ι T → Action ι T → Prop
  | .blocking => anytime
  | .terminated => ReadsDue
  | .timed => TimedApart

omit [Fintype ι] in
theorem take_tail_pop {q q' : MpscQueue (ι × T)} {item : ι × T} (linked : q.Linked)
    (popped : q.pop = some (item, q')) : q'.nodes.take q'.tail = q.nodes.take q.tail ++ [item] := by
  obtain ⟨rfl, value, -⟩ := linked.pop_some popped
  simp only [List.take_add_one, value, Option.toList_some]

omit [Fintype ι] in
theorem read_eq (acted : s.read = some s') : 0 < s.tokens ∧ s' = { s with tokens := s.tokens - 1 } := by
  unfold State.read at acted
  split at acted
  · cases acted
  · cases acted
    exact ⟨by omega, rfl⟩

section
variable (inv : Inv use s)
include inv

theorem Inv.popDeliver {timeout : Int} {item : ι × T} {q : MpscQueue (ι × T)}
    (lead : s.receiver.lead = 1) (held : s.receiver.held = []) (paid : s.receiver.awaits = false)
    (taken : s.receiver.taken = 0) (short : s.receiver.short = false)
    (popped : s.queue.pop = some (item, q)) :
    Inv use ({ s with queue := q }.deliver timeout item) := by
  have received := inv.received
  have take := take_tail_pop inv.linked popped
  obtain ⟨rfl, -, linked⟩ := inv.linked.pop_some popped
  refine ⟨linked, inv.owned, inv.linking, ?_, trivial, inv.calls, nofun, fun _ => ?_⟩
  · simp only [State.deliver, Receiver.held, List.append_nil] at take ⊢
    rw [take, ← received, held, List.append_nil]
  · have live : s.receiver ≠ .returned (-1) none := fun eq => by rw [eq] at lead; cases lead
    have sums := inv.sums live
    have account := sums.account
    have tokens := sums.paid (.inl paid)
    rw [lead] at account
    rw [taken] at tokens
    simp only [State.deliver]
    refine ⟨?_, sums.low, fun h => ?_, nofun, fun _ => tokens⟩
    · simp only [Receiver.lead]
      omega
    · have := sums.short h
      rw [short] at this
      cases this

theorem Inv.goReceiver (safe : use.Safe s .goReceiver)
    (acted : s.goReceiver = some s') : Inv use s' := by
  unfold State.goReceiver at acted
  have timely := inv.timely
  have received := inv.received
  have sums := inv.sums
  cases pc : s.receiver with
  | idle => rw [pc] at acted; cases acted
  | returned => rw [pc] at acted; cases acted
  | failed => rw [pc] at acted; cases acted
  | spinning timeout left =>
    rw [pc] at acted timely received sums
    obtain ⟨account, low, short, due, paid⟩ := sums nofun
    cases left with
    | zero =>
      simp only [Option.some.injEq] at acted
      split at acted
      · next zero =>
          subst acted zero
          exact ⟨inv.linked, inv.owned, inv.linking, received, trivial, inv.calls, nofun,
            fun _ => ⟨account, low, short, nofun, paid⟩⟩
      · next nonzero =>
          subst acted
          refine ⟨inv.linked, inv.owned, inv.linking, received, ?_, inv.calls, nofun,
            fun _ => ⟨account, low, short, nofun, paid⟩⟩
          exact timely.imp_right fun h => h.resolve_left nonzero
    | succ left =>
      cases popped : s.queue.pop with
      | none =>
        simp only [popped] at acted
        cases acted
        exact ⟨inv.linked, inv.owned, inv.linking, received, timely, inv.calls, nofun,
          fun _ => ⟨account, low, short, nofun, paid⟩⟩
      | some result =>
        obtain ⟨item, q⟩ := result
        simp only [popped] at acted
        cases acted
        have take := take_tail_pop inv.linked popped
        obtain ⟨rfl, -, linked⟩ := inv.linked.pop_some popped
        refine ⟨linked, inv.owned, inv.linking, ?_, timely, inv.calls, nofun,
          fun _ => ⟨?_, low, short, nofun, paid⟩⟩
        · simp only [Receiver.held, List.append_nil] at received take ⊢
          rw [take, received]
        · simp only [Receiver.lead] at account ⊢
          omega
  | popped timeout item =>
    rw [pc] at acted timely received sums
    obtain ⟨account, low, short, due, paid⟩ := sums nofun
    have tokens := paid (.inl rfl)
    have nonneg : s.size ≠ -1 := fun h => by cases short h
    simp only [Receiver.lead, Receiver.taken] at account tokens
    simp only [Option.some.injEq] at acted
    split at acted
    · next zero =>
        subst acted
        refine ⟨inv.linked, inv.owned, inv.linking, received, timely, inv.calls, nofun,
          fun _ => ⟨?_, ?_, fun _ => rfl, fun _ h => ?_, fun _ => tokens⟩⟩
        · simp only [Receiver.lead]
          omega
        · simp only
          omega
        · simp only at h
          omega
    · subst acted
      refine ⟨inv.linked, inv.owned, inv.linking, ?_, trivial, inv.calls, nofun,
        fun _ => ⟨?_, ?_, fun h => ?_, nofun, fun _ => tokens⟩⟩
      · simp only [State.deliver, Receiver.held, List.append_nil] at received ⊢
        exact received
      · simp only [State.deliver, Receiver.lead]
        omega
      · simp only [State.deliver]
        omega
      · simp only [State.deliver] at h
        omega
  | absorbing timeout item =>
    rw [pc] at acted timely received sums
    obtain ⟨account, low, short, due, paid⟩ := sums nofun
    simp only [Option.map_eq_some_iff] at acted
    obtain ⟨s₁, read, rfl⟩ := acted
    obtain ⟨pos, rfl⟩ := read_eq read
    -- Without `terminate` a token is there only after an addition.
    have nonneg : 0 ≤ s.size := by
      by_contra neg
      have tokens := paid (.inr (by omega))
      cases use with
      | terminated =>
        simp only [Use.Safe, ReadsDue, pc] at safe
        omega
      | blocking =>
        have := inv.calls nofun
        omega
      | timed =>
        have := inv.calls nofun
        omega
    have tokens := due rfl nonneg
    simp only [Receiver.taken, Receiver.lead] at tokens account
    refine ⟨inv.linked, inv.owned, inv.linking, ?_, trivial, inv.calls, nofun,
      fun _ => ⟨?_, low, fun h => ?_, nofun, fun _ => ?_⟩⟩
    · simp only [State.deliver, Receiver.held, List.append_nil] at received ⊢
      exact received
    · simp only [State.deliver, Receiver.lead]
      omega
    · simp only [State.deliver] at h
      omega
    · simp only [State.deliver, Receiver.taken]
      omega
  | subtracting timeout =>
    rw [pc] at acted timely received sums
    obtain ⟨account, low, short, due, paid⟩ := sums nofun
    have tokens := paid (.inl rfl)
    have nonneg : ¬ s.size < 0 := fun h => by cases short (by omega)
    simp only [Receiver.lead, Receiver.taken] at account tokens
    simp only [Option.some.injEq, if_neg nonneg] at acted
    subst acted
    by_cases zero : s.size = 0
    · by_cases forever : timeout = -1
      · simp only [zero, forever, if_true]
        refine ⟨inv.linked, inv.owned, inv.linking, received, trivial, inv.calls, nofun,
          fun _ => ⟨?_, le_refl (-1), fun _ => rfl, fun _ h => absurd h (by simp), fun _ => tokens⟩⟩
        simp only [Receiver.lead]
        omega
      · simp only [zero, forever, if_true, if_false]
        refine ⟨inv.linked, inv.owned, inv.linking, received, timely.resolve_left forever, inv.calls, nofun,
          fun _ => ⟨?_, le_refl (-1), fun _ => rfl, fun _ h => absurd h (by simp), fun _ => tokens⟩⟩
        simp only [Receiver.lead]
        omega
    · simp only [zero, if_false]
      refine ⟨inv.linked, inv.owned, inv.linking, received, timely, inv.calls, nofun,
        fun _ => ⟨?_, ?_, fun h => ?_, nofun, fun _ => tokens⟩⟩
      · simp only [Receiver.lead]
        omega
      · simp only
        omega
      · simp only at h
        omega
  | reading =>
    rw [pc] at acted timely received sums
    obtain ⟨account, low, short, due, paid⟩ := sums nofun
    simp only [Option.map_eq_some_iff] at acted
    obtain ⟨s₁, read, rfl⟩ := acted
    obtain ⟨pos, rfl⟩ := read_eq read
    refine ⟨inv.linked, inv.owned, inv.linking, received, trivial, inv.calls, nofun,
      fun _ => ⟨account, low, short, fun _ h => ?_, fun h => ?_⟩⟩
    · have := due rfl h
      simp only [Receiver.taken] at this ⊢
      omega
    · have := paid (h.imp nofun id)
      simp only [Receiver.taken] at this ⊢
      omega
  | loading =>
    rw [pc] at acted timely received sums
    obtain ⟨account, low, short, due, paid⟩ := sums nofun
    simp only [Option.some.injEq] at acted
    subst acted
    by_cases nonneg : 0 ≤ s.size
    · have tokens := due rfl nonneg
      simp only [nonneg, if_true]
      refine ⟨inv.linked, inv.owned, inv.linking, received, .inl rfl, inv.calls, nofun,
        fun _ => ⟨account, low, fun h => ?_, nofun, fun _ => ?_⟩⟩
      · simp only at h
        omega
      · simp only [Receiver.taken] at tokens ⊢
        omega
    · -- The token was that of `terminate`.
      have tokens := paid (.inr (by omega))
      simp only [nonneg, if_false]
      refine ⟨inv.linked, inv.owned, inv.linking, received, trivial, inv.calls, fun _ => ?_,
        fun h => absurd rfl h⟩
      simp only [Receiver.taken] at tokens ⊢
      omega
  | popping timeout =>
    rw [pc] at acted
    cases popped : s.queue.pop with
    | none =>
      simp only [popped, Option.some.injEq] at acted
      subst acted
      exact inv
    | some result =>
      obtain ⟨item, q⟩ := result
      simp only [popped, Option.some.injEq] at acted
      subst acted
      exact inv.popDeliver (by rw [pc]; rfl) (by rw [pc]; rfl) (by rw [pc]; rfl) (by rw [pc]; rfl)
        (by rw [pc]; rfl) popped
  | polling timeout =>
    rw [pc] at acted timely received sums
    obtain ⟨account, low, short, due, paid⟩ := sums nofun
    simp only at acted
    split at acted
    · cases acted
    · next some_ =>
        cases acted
        obtain ⟨rfl, pos⟩ := timely
        have none := inv.calls nofun
        refine ⟨inv.linked, inv.owned, inv.linking, received, ⟨rfl, pos⟩, inv.calls, nofun,
          fun _ => ⟨account, low, fun h => ?_, due, paid⟩⟩
        have tokens := paid (.inr (by simp only at h; omega))
        omega
  | undoing timeout =>
    rw [pc] at acted timely received sums
    obtain ⟨account, low, short, due, paid⟩ := sums nofun
    obtain ⟨rfl, pos⟩ := timely
    have empty : s.size = -1 := by simpa only [Use.Safe, TimedApart, pc] using safe
    have tokens := paid (.inr (by omega))
    simp only [Receiver.lead] at account
    cases acted
    refine ⟨inv.linked, inv.owned, inv.linking, received, trivial, inv.calls, fun h => ?_,
      fun _ => ⟨?_, ?_, fun h => ?_, nofun, fun _ => tokens⟩⟩
    · simp only [Receiver.returned.injEq] at h
      omega
    · simp only [Receiver.lead]
      omega
    · simp only
      omega
    · simp only at h
      omega
  | pollReading timeout =>
    rw [pc] at acted timely received sums
    obtain ⟨account, low, short, due, paid⟩ := sums nofun
    simp only [Option.map_eq_some_iff] at acted
    obtain ⟨s₁, read, rfl⟩ := acted
    obtain ⟨pos, rfl⟩ := read_eq read
    have nonneg : s.size ≠ -1 := fun h => by cases short h
    have tokens := due rfl (by omega)
    refine ⟨inv.linked, inv.owned, inv.linking, received, timely, inv.calls, nofun,
      fun _ => ⟨account, low, short, nofun, fun _ => ?_⟩⟩
    simp only [Receiver.taken] at tokens ⊢
    omega
  | pollPopping timeout =>
    rw [pc] at acted timely
    obtain ⟨rfl, -⟩ := timely
    cases popped : s.queue.pop with
    | none =>
      simp only [Use.Safe, TimedApart, pc] at safe
      exact absurd (inv.linked.pop_none.1 popped) safe
    | some result =>
      obtain ⟨item, q⟩ := result
      simp only [popped, Option.some.injEq] at acted
      subst acted
      exact inv.popDeliver (by rw [pc]; rfl) (by rw [pc]; rfl) (by rw [pc]; rfl) (by rw [pc]; rfl)
        (by rw [pc]; rfl) popped

theorem Inv.recv {timeout : Int} {spinCount : Nat}
    (allowed : use.Allows s (.recv timeout spinCount)) (acted : s.recv timeout spinCount = some s') :
    Inv use s' := by
  have ready : (s.receiver = .idle ∨ ∃ t r, s.receiver = .returned t r) ∧
      s' = { s with receiver := .spinning timeout spinCount } := by
    unfold State.recv at acted
    cases pc : s.receiver <;> rw [pc] at acted <;> cases acted
    · exact ⟨.inl rfl, rfl⟩
    · exact ⟨.inr ⟨_, _, rfl⟩, rfl⟩
  obtain ⟨rest, rfl⟩ := ready
  -- A receiver that was told to stop makes no further call.
  have live : s.receiver ≠ .returned (-1) none := by
    intro stopped
    cases use with
    | terminated => exact allowed.2 stopped
    | blocking => exact absurd (inv.stopped stopped) (by rw [inv.calls nofun]; exact lt_irrefl 0)
    | timed => exact absurd (inv.stopped stopped) (by rw [inv.calls nofun]; exact lt_irrefl 0)
  obtain ⟨account, low, short, due, paid⟩ := inv.sums live
  have timely : Receiver.Timely use (.spinning timeout spinCount : Receiver (ι × T)) := by
    cases use with
    | blocking => exact Or.imp_right Or.inl allowed
    | terminated => exact .inl allowed.1
    | timed =>
      simp only [Use.Allows] at allowed
      simp only [Receiver.Timely, true_and]
      omega
  have received := inv.received
  refine ⟨inv.linked, inv.owned, inv.linking, ?_, timely, inv.calls, nofun, fun _ => ?_⟩
  · rcases rest with pc | ⟨t, r, pc⟩ <;> rw [pc] at received <;> exact received
  · rcases rest with pc | ⟨t, r, pc⟩ <;> rw [pc] at account short paid <;>
      exact ⟨account, low, short, nofun, fun _ => paid (.inl rfl)⟩

theorem Inv.pollTimeout (acted : s.pollTimeout = some s') : Inv use s' := by
  unfold State.pollTimeout at acted
  have timely := inv.timely
  have received := inv.received
  have sums := inv.sums
  split at acted
  · next timeout pc =>
      split at acted
      · cases acted
        rw [pc] at timely received sums
        obtain ⟨account, low, short, due, paid⟩ := sums nofun
        exact ⟨inv.linked, inv.owned, inv.linking, received, timely, inv.calls, nofun,
          fun _ => ⟨account, low, short, due, paid⟩⟩
      · cases acted
  · cases acted

theorem Inv.terminate (allowed : use.Allows s .terminate) : Inv use s.terminate := by
  refine ⟨inv.linked, inv.owned, inv.linking, inv.received, inv.timely,
    fun other => absurd allowed.1 other, fun _ => Nat.succ_pos _, fun live => ?_⟩
  obtain ⟨account, low, short, due, paid⟩ := inv.sums live
  simp only [State.terminate]
  exact ⟨account, low, short, fun h h' => by have := due h h'; omega, fun h => by have := paid h; omega⟩

theorem Inv.step [DecidableEq ι] (step : ChannelStep use use.Safe s s') : Inv use s' := by
  obtain ⟨a, allowed, safe, acted⟩ := step
  cases a with
  | send i item => exact inv.send acted
  | goSender i => exact inv.goSender acted
  | recv timeout spinCount => exact inv.recv allowed acted
  | goReceiver => exact inv.goReceiver safe acted
  | pollTimeout => exact inv.pollTimeout acted
  | terminate =>
    cases acted
    exact inv.terminate allowed

end

theorem inv_reachable [DecidableEq ι] (reachable : ChannelReachable use use.Safe s) : Inv use s := by
  refine Reachable.invariant (Inv use) ?_ (fun s t inv step => inv.step step) reachable
  rintro s rfl
  exact .initial use

end Prpc.RpcChannel
