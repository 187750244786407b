import Mathlib.Algebra.Order.Group.Multiset
import Mathlib.Tactic.Abel
import Prpc.Rpc.FrontEnd.Model

namespace Prpc.FrontEnd
open Lib

variable {T : Type}

def Pc.writer : Pc T → Bool
  | asking _ | calling .. | pushing _ | linking .. | done | crashed => false
  | _ => true

def Pc.carried : Pc T → Multiset T
  | asking msg | calling _ msg | pushing msg => {msg}
  | _ => 0

def Pc.counted : Pc T → Nat
  | pushing _ => 1
  | _ => 0

namespace State

def owed (s : State T) : Pc T → Nat
  | .checking => s.more.toNat
  | .looping _ cnt | .sending _ cnt | .keeping cnt | .connecting cnt | .resuming cnt | .failing cnt
  | .handing cnt => s.more.toNat + cnt
  | .draining cnt => cnt
  | _ => 0

def live (s : State T) : Pc T → Multiset T
  | .checking | .looping .. => mail s.msg
  | .sending .. | .failing _ | .handing _ => mail s.sendingMsg + mail s.msg
  | .keeping _ | .connecting _ | .resuming _ =>
    (if s.pending then mail s.sendingMsg else 0) + mail s.msg
  | _ => 0

def held (s : State T) : Multiset T :=
  total Pc.carried s.threads + (s.queue.nodes.drop s.queue.tail : Multiset T) + total s.live s.threads

end State

@[simp]
theorem mail_none : mail (none : Option T) = 0 := rfl

@[simp]
theorem mail_some (msg : T) : mail (some msg) = {msg} := rfl

/-- The counter and the messages add up. `gone` are those that have left the front end. -/
structure Account (threads : List (Pc T)) (queue : MpscQueue T) (size : Int) (passed gone : Multiset T)
    (owed : Nat) (live : Multiset T) : Prop where
  size : size = owed + total Pc.counted threads + (queue.nodes.length - queue.tail : Nat)
  mail : passed = total Pc.carried threads + (queue.nodes.drop queue.tail : Multiset T) + live + gone
  linked : queue.Linked
  links : ∀ prev n, .linking prev n ∈ threads → n = prev + 1 ∧ n ≤ queue.nodes.length

namespace Account

variable {threads : List (Pc T)} {queue queue' : MpscQueue T} {size size' : Int}
  {passed passed' gone gone' live live' : Multiset T} {owed owed' k : Nat} {pc pc' : Pc T} {v : T}

section
variable (account : Account threads queue size passed gone owed live)
include account

theorem set (at_ : threads[k]? = some pc)
    (sized : size' + pc.counted + owed = size + pc'.counted + owed')
    (moved : live' + pc'.carried + gone' = live + pc.carried + gone)
    (fresh : ∀ prev n, pc' ≠ .linking prev n) :
    Account (threads.set k pc') queue size' passed gone' owed' live' where
  size := by
    have before := account.size
    have counted := total_set (f := Pc.counted) at_ pc'
    omega
  mail := by
    have carried := total_set (f := Pc.carried) at_ pc'
    refine add_right_cancel (b := pc.carried) ?_
    rw [account.mail]
    calc
      _ = total Pc.carried threads + (queue.nodes.drop queue.tail : Multiset T) +
          (live + pc.carried + gone) := by abel
      _ = (total Pc.carried threads + pc'.carried) + (queue.nodes.drop queue.tail : Multiset T) +
          live' + gone' := by rw [← moved]; abel
      _ = _ := by rw [← carried]; abel
  linked := account.linked
  links prev n mem := by
    rcases List.mem_or_eq_of_mem_set mem with old | eq
    · exact account.links prev n old
    · exact absurd eq.symm (fresh prev n)

theorem append (pc : Pc T)
    (counted : pc.counted = 0) (more : passed' = pc.carried + passed)
    (fresh : ∀ prev n, pc ≠ .linking prev n) :
    Account (threads ++ [pc]) queue size passed' gone owed live where
  size := by
    have before := account.size
    rw [total_append, counted]
    omega
  mail := by
    rw [total_append, more, account.mail]
    abel
  linked := account.linked
  links prev n mem := by
    rcases List.mem_append.1 mem with old | new
    · exact account.links prev n old
    · exact absurd (List.mem_singleton.1 new).symm (fresh prev n)

theorem pop
    (popped : queue.pop = some (v, queue')) :
    Account threads queue' size passed gone (owed + 1) ({v} + live) := by
  obtain ⟨rfl, value, linked⟩ := account.linked.pop_some popped
  obtain ⟨lt, rfl⟩ := List.getElem?_eq_some_iff.1 value
  refine ⟨?_, ?_, linked, account.links⟩
  · have before := account.size
    dsimp only
    omega
  · rw [account.mail, List.drop_eq_getElem_cons lt, ← Multiset.cons_coe, ← Multiset.singleton_add]
    abel

theorem exchange
    (at_ : threads[k]? = some (.pushing v)) :
    Account (threads.set k (.linking (queue.exchange v).2.1 (queue.exchange v).2.2))
      (queue.exchange v).1 size passed gone owed live where
  size := by
    have before := account.size
    have tail := account.linked.tail
    have counted := total_set (f := Pc.counted) at_
      (.linking (queue.exchange v).2.1 (queue.exchange v).2.2)
    simp only [Pc.counted, MpscQueue.exchange, List.length_append, List.length_singleton] at counted ⊢
    omega
  mail := by
    have carried := total_set (f := Pc.carried) at_
      (.linking (queue.exchange v).2.1 (queue.exchange v).2.2)
    rw [account.mail]
    simp only [Pc.carried, add_zero] at carried
    rw [← carried]
    simp only [MpscQueue.exchange, List.drop_append_of_le_length account.linked.tail,
      ← Multiset.coe_add, Multiset.coe_singleton]
    abel
  linked := account.linked.exchange v
  links prev n mem := by
    simp only [MpscQueue.exchange, List.length_append, List.length_singleton]
    rcases List.mem_or_eq_of_mem_set mem with old | eq
    · obtain ⟨after, le⟩ := account.links prev n old
      exact ⟨after, by omega⟩
    · cases eq
      simp only [MpscQueue.exchange, account.linked.head]
      exact ⟨trivial, le_refl _⟩

theorem link {prev n : Nat}
    (at_ : threads[k]? = some (.linking prev n)) :
    Account (threads.set k .done) (queue.link prev n) size passed gone owed live := by
  obtain ⟨after, le⟩ := account.links prev n (List.mem_of_getElem? at_)
  have moved : Account (threads.set k .done) queue size passed gone owed live := account.set at_ rfl rfl nofun
  exact ⟨moved.size, moved.mail, account.linked.link after le, moved.links⟩

end

end Account

theorem shift_eq (s : State T) : ∃ msg queue,
    s.shift = { s with sendingMsg := s.msg, msg := msg, more := msg.isSome, queue := queue } ∧
    ∀ {threads size passed gone owed live}, Account threads s.queue size passed gone owed live →
      Account threads queue size passed gone (msg.isSome.toNat + owed) (live + mail msg) := by
  unfold State.shift
  cases popped : s.queue.pop with
  | none =>
    refine ⟨none, s.queue, rfl, fun account => ?_⟩
    simpa using account
  | some top =>
    obtain ⟨msg, queue⟩ := top
    refine ⟨some msg, queue, rfl, fun account => ?_⟩
    have popped := account.pop popped
    rwa [add_comm, add_comm _ (_ : Multiset T)] at popped

end Prpc.FrontEnd
