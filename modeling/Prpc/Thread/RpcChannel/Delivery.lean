import Prpc.Thread.RpcChannel.Accounting

namespace Prpc.RpcChannel
open Lib

variable {ι T : Type} [Fintype ι] {use : Use} {s : State ι T}

def Blocked (s : State ι T) : Prop :=
  s.tokens = 0 ∧ (s.receiver = .reading ∨ ∃ timeout item, s.receiver = .absorbing timeout item)

def CompletelySent (s : State ι T) (n : Nat) : Prop :=
  n ≤ s.queue.nodes.length ∧ ∀ i, (s.senders i).node ≠ some n

def Unfinished (s : State ι T) : Prop :=
  (∃ i, (s.senders i).owing = true) ∨
  ∃ i n, (s.senders i).unadded = true ∧ (s.senders i).node = some n ∧ n ≤ s.queue.tail

theorem Sender.node_of_unadded {pc : Sender} (h : pc.unadded = true) : ∃ n, pc.node = some n := by
  cases pc with
  | idle => cases h
  | writing => cases h
  | linking prev n => exact ⟨n, rfl⟩
  | adding n => exact ⟨n, rfl⟩

section
variable (inv : Inv use s)
include inv

theorem Inv.count_unadded {n : Nat} (queued : s.queue.tail < n)
    (sent : CompletelySent s n)
    (later : ∀ i m, (s.senders i).unadded = true → (s.senders i).node = some m → s.queue.tail < m) :
    count Sender.unadded s.senders + s.queue.tail < s.queue.nodes.length := by
  have fits : count Sender.unadded s.senders ≤
      ((Finset.Ioc s.queue.tail s.queue.nodes.length).erase n).card := by
    refine Finset.card_le_card_of_injOn (fun i => ((s.senders i).node).getD 0) ?_ ?_
    · intro i mem
      have unadded : (s.senders i).unadded = true := by simpa using mem
      obtain ⟨m, node⟩ := Sender.node_of_unadded unadded
      have le := inv.owned.node_le node
      have ne : m ≠ n := fun eq => sent.2 i (eq ▸ node)
      simp only [node, Option.getD_some, Finset.coe_erase, Set.mem_sdiff, Finset.mem_coe,
        Finset.mem_Ioc, Set.mem_singleton_iff]
      exact ⟨⟨later i m unadded node, le⟩, ne⟩
    · intro i memI j memJ same
      obtain ⟨m, nodeI⟩ := Sender.node_of_unadded (show (s.senders i).unadded = true by simpa using memI)
      obtain ⟨m', nodeJ⟩ := Sender.node_of_unadded (show (s.senders j).unadded = true by simpa using memJ)
      obtain rfl : m = m' := by simpa only [nodeI, nodeJ, Option.getD_some] using same
      have ownI := (inv.owned i m nodeI).2
      rw [(inv.owned j m nodeJ).2] at ownI
      exact (Option.some.inj ownI).symm
  have inside : n ∈ Finset.Ioc s.queue.tail s.queue.nodes.length := Finset.mem_Ioc.2 ⟨queued, sent.1⟩
  rw [Finset.card_erase_of_mem inside, Nat.card_Ioc] at fits
  have := sent.1
  omega

theorem Inv.unfinished (quiet : s.terminates = 0) {n : Nat} (blocked : Blocked s)
    (queued : s.queue.tail < n) (sent : CompletelySent s n) : Unfinished s := by
  obtain ⟨empty, where_⟩ := blocked
  by_contra finished
  rw [Unfinished, not_or] at finished
  obtain ⟨noToken, noItem⟩ := finished
  have paidAll : count Sender.owing s.senders = 0 :=
    count_eq_zero.2 fun i => Bool.eq_false_iff.2 fun h => noToken ⟨i, h⟩
  have few := inv.count_unadded queued sent fun i m unadded node =>
    Nat.lt_of_not_le fun le => noItem ⟨i, m, unadded, node, le⟩
  have waits : s.receiver ≠ .returned (-1) none ∧ s.receiver.awaits = true ∧
      s.receiver.lead ≤ 1 ∧ s.receiver.taken = 0 := by
    rcases where_ with pc | ⟨timeout, item, pc⟩ <;> rw [pc] <;>
      exact ⟨by simp, rfl, by simp [Receiver.lead], rfl⟩
  obtain ⟨live, awaits, lead, taken⟩ := waits
  obtain ⟨account, low, short, due, paid⟩ := inv.sums live
  have negative : ¬ 0 ≤ s.size := fun h => by
    have := due awaits h
    omega
  omega

theorem Inv.in_order [DecidableEq ι] : s.received <+: s.queue.nodes ∧
    ∀ i, s.received.filter (fun x => x.1 = i) <+: s.queue.nodes.filter fun x => x.1 = i := by
  have taken : s.received <+: s.queue.nodes.take s.queue.tail :=
    inv.received ▸ List.prefix_append _ s.receiver.held
  have ordered := taken.trans (List.take_prefix _ _)
  exact ⟨ordered, fun i => ordered.filter _⟩

theorem Inv.not_failed : s.receiver ≠ .failed := by
  intro pc
  have timely := inv.timely
  rw [pc] at timely
  exact timely

theorem Inv.not_stopped (quiet : s.terminates = 0) :
    s.receiver ≠ .returned (-1) none := fun pc => absurd (inv.stopped pc) (by omega)

end

/-- Without `terminate` and positive timeouts. -/
theorem blocking_delivery [DecidableEq ι] (reachable : ChannelReachable .blocking anytime s) :
    (s.received <+: s.queue.nodes ∧
      ∀ i, s.received.filter (fun x => x.1 = i) <+: s.queue.nodes.filter fun x => x.1 = i) ∧
    s.receiver ≠ .failed ∧ s.receiver ≠ .returned (-1) none ∧
    ∀ n, Blocked s → s.queue.tail < n → CompletelySent s n → Unfinished s := by
  have inv : Inv .blocking s := inv_reachable reachable
  have quiet := inv.calls nofun
  exact ⟨inv.in_order, inv.not_failed, inv.not_stopped quiet,
    fun n blocked queued sent => inv.unfinished quiet blocked queued sent⟩

/-- With a `terminate` at any time, where no token is read for a popped item before an item is added. -/
theorem terminated_delivery [DecidableEq ι] (reachable : ChannelReachable .terminated ReadsDue s) :
    (s.received <+: s.queue.nodes ∧
      ∀ i, s.received.filter (fun x => x.1 = i) <+: s.queue.nodes.filter fun x => x.1 = i) ∧
    s.receiver ≠ .failed ∧ (s.receiver = .returned (-1) none → 0 < s.terminates) := by
  have inv : Inv .terminated s := inv_reachable reachable
  exact ⟨inv.in_order, inv.not_failed, inv.stopped⟩

section
variable [DecidableEq ι] [DecidableEq T]

instance (use : Use) (s : State ι T) : (a : Action ι T) → Decidable (use.Allows s a)
  | .terminate => inferInstanceAs (Decidable (use = .terminated ∧ s.terminates = 0))
  | .recv timeout _ =>
    match use with
    | .blocking => inferInstanceAs (Decidable (timeout = -1 ∨ timeout = 0))
    | .terminated => inferInstanceAs (Decidable (timeout = -1 ∧ s.receiver ≠ .returned (-1) none))
    | .timed => inferInstanceAs (Decidable (-1 ≤ timeout))
  | .send .. | .goSender _ | .goReceiver | .pollTimeout => isTrue trivial

def perform (use : Use) (check : State ι T → Action ι T → Bool) (s : State ι T) (a : Action ι T) :
    Option (State ι T) :=
  if use.Allows s a ∧ check s a = true then act s a else none

omit [Fintype ι] in
theorem reachable_of_run (use : Use) (guard : State ι T → Action ι T → Prop)
    (check : State ι T → Action ι T → Bool) (sound : ∀ s a, check s a = true → guard s a)
    (actions : List (Action ι T)) (found : State ι T → Bool)
    (ran : (actions.foldlM (perform use check) initial).any found = true) :
    ∃ s, ChannelReachable use guard s ∧ found s = true := by
  obtain ⟨s, run, holds⟩ := (Option.any_eq_true ..).1 ran
  refine ⟨s, .foldlM (fun a _ s t performed => ?_) (.initial rfl) run, holds⟩
  unfold perform at performed
  split at performed
  · next allowed => exact .act a allowed.1 (sound s a allowed.2) performed
  · cases performed

end

/-- Sender 0 links its item and does not add it, sender 1 does not link its item, and sender 2 is done.
The receiver takes the first item and waits for the next one. -/
def crossing : List (Action (Fin 3) Nat) :=
  [.send 0 10, .goSender 0, .send 1 11, .send 2 12, .goSender 2, .goSender 2,
    .recv (-1) 1, .goReceiver, .goReceiver, .recv (-1) 1, .goReceiver, .goReceiver, .goReceiver]

def crossed (s : State (Fin 3) Nat) : Bool :=
  decide (s.tokens = 0 ∧ s.receiver = .reading ∧ s.queue.tail < 3 ∧ 3 ≤ s.queue.nodes.length ∧
    ∀ i, (s.senders i).node ≠ some 3)

theorem blocked_of_crossed {s : State (Fin 3) Nat} (found : crossed s = true) :
    Blocked s ∧ s.queue.tail < 3 ∧ CompletelySent s 3 := by
  obtain ⟨tokens, pc, queued, len, sent⟩ := of_decide_eq_true found
  exact ⟨⟨tokens, .inl pc⟩, queued, len, sent⟩

theorem blocked_beside_item : ∃ s : State (Fin 3) Nat, ChannelReachable .blocking anytime s ∧
    Blocked s ∧ s.queue.tail < 3 ∧ CompletelySent s 3 := by
  obtain ⟨s, reachable, found⟩ := reachable_of_run .blocking anytime (fun _ _ => true)
    (fun _ _ _ => trivial) crossing crossed (by decide +kernel)
  exact ⟨s, reachable, blocked_of_crossed found⟩

theorem blocking_delivery_crossing : ∃ s : State (Fin 3) Nat, ChannelReachable .blocking anytime s ∧
    Blocked s ∧ s.queue.tail < 3 ∧ CompletelySent s 3 ∧ Unfinished s := by
  obtain ⟨s, reachable, found⟩ := reachable_of_run .blocking anytime (fun _ _ => true)
    (fun _ _ _ => trivial) crossing crossed (by decide +kernel)
  obtain ⟨blocked, queued, sent⟩ := blocked_of_crossed found
  exact ⟨s, reachable, blocked, queued, sent, (blocking_delivery reachable).2.2.2 3 blocked queued sent⟩

/-- The receiver takes the item before it is added and reads the token of `terminate` for it. The next
`recv` finds -1. -/
theorem terminate_breaks_size : ∃ s : State (Fin 1) Nat,
    ChannelReachable .terminated anytime s ∧ s.receiver = .failed := by
  obtain ⟨s, reachable, found⟩ := reachable_of_run .terminated anytime (fun _ _ => true)
    (fun _ _ _ => trivial)
    ([.send 0 10, .goSender 0, .recv (-1) 1, .goReceiver, .goReceiver, .terminate, .goReceiver,
      .recv (-1) 1, .goReceiver, .goReceiver, .goReceiver] : List (Action (Fin 1) Nat))
    (fun s => decide (s.receiver = .failed)) (by decide +kernel)
  exact ⟨s, reachable, of_decide_eq_true found⟩

def readsDue (s : State (Fin 1) Nat) (a : Action (Fin 1) Nat) : Bool :=
  match a, s.receiver with
  | .goReceiver, .absorbing .. => s.size ≠ -1
  | _, _ => true

theorem terminated_delivery_once : ∃ s : State (Fin 1) Nat,
    ChannelReachable .terminated ReadsDue s ∧ s.received = [(0, 10)] ∧
    s.receiver = .returned (-1) none ∧ 0 < s.terminates := by
  obtain ⟨s, reachable, found⟩ := reachable_of_run .terminated ReadsDue readsDue
    (fun s a checked => by
      cases a with
      | goReceiver =>
        cases pc : s.receiver <;> simp only [pc, ReadsDue, readsDue] at checked ⊢
        exact of_decide_eq_true checked
      | _ => trivial)
    ([.recv (-1) 1, .send 0 10, .goSender 0, .goReceiver, .goReceiver, .goSender 0, .goSender 0,
      .goReceiver, .recv (-1) 1, .goReceiver, .goReceiver, .goReceiver, .terminate, .goReceiver,
      .goReceiver] : List (Action (Fin 1) Nat))
    (fun s => decide (s.received = [(0, 10)] ∧ s.receiver = .returned (-1) none)) (by decide +kernel)
  obtain ⟨received, stopped⟩ := of_decide_eq_true found
  exact ⟨s, reachable, received, stopped, (terminated_delivery reachable).2.2 stopped⟩

def timedApart (s : State (Fin 1) Nat) (a : Action (Fin 1) Nat) : Bool :=
  match a, s.receiver with
  | .goReceiver, .undoing _ => s.size = -1
  | .goReceiver, .pollPopping _ => s.queue.next s.queue.tail ≠ none
  | _, _ => true

end Prpc.RpcChannel
