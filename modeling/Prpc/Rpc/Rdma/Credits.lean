import Prpc.Rpc.Rdma.Model

/-!
Of the credits for one direction the sending side has a share and the receiving side has a share.
-/

namespace Prpc.Rdma
open Lib
open Function (update update_self update_of_ne)

def dataCount (ps : List Packet) : Nat := ps.countP fun p => 0 < p.byteLen

def ackSum (ps : List Packet) : Nat := (ps.map fun p => ackNum p.imm).sum

@[simp] theorem dataCount_append (ps qs : List Packet) : dataCount (ps ++ qs) = dataCount ps + dataCount qs :=
  List.countP_append

@[simp] theorem ackSum_append (ps qs : List Packet) : ackSum (ps ++ qs) = ackSum ps + ackSum qs := by
  simp [ackSum]

theorem dataCount_cons (p : Packet) (ps : List Packet) :
    dataCount (p :: ps) = dataCount [p] + dataCount ps := dataCount_append [p] ps

theorem ackSum_cons (p : Packet) (ps : List Packet) : ackSum (p :: ps) = ackSum [p] + ackSum ps :=
  ackSum_append [p] ps

namespace Sender

def imm : Sender → Nat
  | .counting p | .waiting p | .posting p => p.imm
  | _ => 0

def counted : Sender → Nat
  | .waiting _ | .posting _ => 1
  | _ => 0

end Sender

namespace Handler

def wcs : Handler → List Packet
  | .inEvent wcs .. => wcs
  | _ => []

def ctl : Handler → Nat
  | .inPoll ctl _ | .inEvent _ _ ctl _ | .addingAcks ctl _ | .addingCredits ctl => ctl
  | _ => 0

def imm : Handler → Nat
  | .inPoll _ ack | .inEvent _ _ _ ack | .addingAcks _ ack => ack
  | .postingAck imm => imm
  | _ => 0

def wakes : Handler → Nat
  | .waking => 1
  | _ => 0

def load (h : Handler) : List Packet × Nat × Nat × Nat := (h.wcs, h.ctl, h.imm, h.wakes)

end Handler

namespace Node

/-- The credits of the sender. One that has been counted and not been used is still there. -/
def credits (n : Node) : Int := n.postSendBlockerCnt + n.sender.counted

def unprocessed (n : Node) : List Packet := n.handler.wcs ++ n.recvCq

def unacked (n : Node) : Int := n.ackCnt / 2 ^ 16 + ackNum n.handler.imm + ackNum n.sender.imm

def outShare (n : Node) : Int := n.credits + dataCount n.wire + (ackSum n.unprocessed + n.handler.ctl)

def inShare (n : Node) : Int := dataCount n.unprocessed + n.unacked + ackSum n.wire

end Node

/-- The sum for the direction from `x` to its peer: credits, data that is on its way or unprocessed, what is
not yet acknowledged, and acknowledgements that are on their way or unprocessed. -/
def total (w : World) (x : Bool) : Int :=
  (w x).credits + (dataCount (w x).wire + dataCount (w (!x)).unprocessed) + (w (!x)).unacked +
    (ackSum (w (!x)).wire + ackSum (w x).unprocessed + (w x).handler.ctl)

theorem total_eq (w : World) (x : Bool) : total w x = (w x).outShare + (w (!x)).inShare := by
  simp only [total, Node.outShare, Node.inShare]
  omega

def Packet.Useful (p : Packet) : Prop := 0 < p.byteLen ∨ 0 < ackNum p.imm

def Sender.Sound : Sender → Prop
  | .idle => True
  | .taking byteLen _ => 0 < byteLen
  | .counting p | .waiting p | .posting p => 0 < p.byteLen

def Handler.Sound : Handler → Prop
  | .addingCredits ctl => 0 < ctl
  | .postingAck imm => 0 < ackNum imm
  | h => 2 ^ 16 ∣ h.imm

def Wakes (blocker : Nat) (cnt : Int) (sender : Sender) : Prop :=
  blocker = 0 ∧ cnt = -1 ∧ (∃ p, sender = .waiting p) ∨
    0 ≤ cnt ∧ (blocker = 0 ∧ (∀ p, sender ≠ .waiting p) ∨ blocker = 1 ∧ ∃ p, sender = .waiting p)

theorem Wakes.other {blocker : Nat} {cnt : Int} {a b : Sender} (wakes : Wakes blocker cnt a)
    (before : ∀ p, a ≠ .waiting p) (after : ∀ p, b ≠ .waiting p) : Wakes blocker cnt b := by
  obtain ⟨-, -, p, waits⟩ | ⟨nonneg, ⟨none_, -⟩ | ⟨-, p, waits⟩⟩ := wakes
  · exact absurd waits (before p)
  · exact .inr ⟨nonneg, .inl ⟨none_, after⟩⟩
  · exact absurd waits (before p)

structure Node.Sound (n : Node) : Prop where
  wakes : Wakes (n.postSendBlocker + n.handler.wakes) n.postSendBlockerCnt n.sender
  acks : 0 ≤ n.ackCnt ∧ 2 ^ 16 ∣ n.ackCnt
  sender : n.sender.Sound
  handler : n.handler.Sound
  received : ∀ p ∈ n.unprocessed, p.Useful
  sent : ∀ p ∈ n.wire, p.Useful

structure Kept (n n' : Node) : Prop where
  out : n'.outShare = n.outShare
  in_ : n'.inShare = n.inShare
  sound : n'.Sound

variable {n n' : Node}

section
variable (sound : n.Sound)
include sound

theorem Node.Sound.credits_nonneg : 0 ≤ n.credits := by
  rw [Node.credits]
  obtain ⟨-, cnt, p, waits⟩ | ⟨nonneg, -⟩ := sound.wakes
  · simp [cnt, waits, Sender.counted]
  · omega

theorem Node.Sound.outShare_nonneg : 0 ≤ n.outShare := by
  have := sound.credits_nonneg
  rw [Node.outShare]
  omega

theorem Node.Sound.unacked_nonneg : 0 ≤ n.ackCnt / 2 ^ 16 := Int.ediv_nonneg sound.acks.1 (by decide)

theorem Node.Sound.inShare_nonneg : 0 ≤ n.inShare := by
  have := sound.unacked_nonneg
  rw [Node.inShare, Node.unacked]
  omega

theorem Node.Sound.ackCnt_lt (few : n.inShare ≤ bnum) : n.ackCnt ≤ bnum * 2 ^ 16 := by
  have := sound.acks.2
  rw [Node.inShare, Node.unacked] at few
  omega

theorem Node.Sound.ackNum_toUint32 (few : n.inShare ≤ bnum) : (toUint32 n.ackCnt : Int) = n.ackCnt := by
  have le := sound.ackCnt_lt few
  have nonneg := sound.acks.1
  simp only [toUint32, bnum] at le ⊢
  omega

theorem Node.Sound.kept : Kept n n := ⟨rfl, rfl, sound⟩

theorem Node.Sound.move (sender : n'.sender = n.sender)
    (unprocessed : n'.unprocessed = n.unprocessed) (wire : n'.wire = n.wire)
    (credits : n'.postSendBlockerCnt + n'.handler.ctl = n.postSendBlockerCnt + n.handler.ctl)
    (unacked : n'.ackCnt / 2 ^ 16 + ackNum n'.handler.imm = n.ackCnt / 2 ^ 16 + ackNum n.handler.imm)
    (wakes : Wakes (n'.postSendBlocker + n'.handler.wakes) n'.postSendBlockerCnt n.sender)
    (acks : 0 ≤ n'.ackCnt ∧ 2 ^ 16 ∣ n'.ackCnt) (handler : n'.handler.Sound) : Kept n n' := by
  refine ⟨?_, ?_, ?_, acks, ?_, handler, ?_, ?_⟩
  · simp only [Node.outShare, Node.credits, sender, unprocessed, wire]
    omega
  · simp only [Node.inShare, Node.unacked, sender, unprocessed, wire]
    omega
  · rw [sender]
    exact wakes
  · rw [sender]
    exact sound.sender
  · rw [unprocessed]
    exact sound.received
  · rw [wire]
    exact sound.sent

end

structure Agrees (n n' : Node) : Prop where
  postSendBlocker : n'.postSendBlocker = n.postSendBlocker
  postSendBlockerCnt : n'.postSendBlockerCnt = n.postSendBlockerCnt
  ackCnt : n'.ackCnt = n.ackCnt
  sender : n'.sender = n.sender
  handler : n'.handler = n.handler
  wire : n'.wire = n.wire
  recvCq : n'.recvCq = n.recvCq

theorem Kept.agrees {n₁ n₂ : Node} (kept : Kept n n₁) (same : Agrees n₁ n₂) : Kept n n₂ := by
  have unprocessed : n₂.unprocessed = n₁.unprocessed := by
    simp [Node.unprocessed, same.handler, same.recvCq]
  have moved : Kept n₁ n₂ := by
    refine kept.sound.move same.sender unprocessed same.wire ?_ ?_ ?_ ?_ ?_
    · rw [same.postSendBlockerCnt, same.handler]
    · rw [same.ackCnt, same.handler]
    · rw [same.postSendBlocker, same.postSendBlockerCnt, same.handler]
      exact kept.sound.wakes
    · rw [same.ackCnt]
      exact kept.sound.acks
    · rw [same.handler]
      exact kept.sound.handler
  exact ⟨moved.out.trans kept.out, moved.in_.trans kept.in_, moved.sound⟩

section
variable (sound : n.Sound)
include sound

theorem kept_taking (few : n.inShare ≤ bnum) {byteLen : Nat} {msgs : List Nat}
    (here : n.sender = .taking byteLen msgs) :
    Kept n { n with ackCnt := 0, sender := .counting ⟨byteLen, msgs, toUint32 n.ackCnt⟩ } := by
  have exact_ := sound.ackNum_toUint32 few
  have bytes := sound.sender
  rw [here] at bytes
  refine ⟨?_, ?_, ?_, ⟨Int.le_refl 0, Int.dvd_zero _⟩, bytes, sound.handler, sound.received, sound.sent⟩
  · simp [Node.outShare, Node.credits, Node.unprocessed, here, Sender.counted]
  · simp only [Node.inShare, Node.unacked, Node.unprocessed, here, Sender.imm, ackNum]
    omega
  · exact sound.wakes.other (by simp [here]) nofun

variable {p : Packet}

theorem kept_counting (here : n.sender = .counting p) : Kept n { n with
      postSendBlockerCnt := n.postSendBlockerCnt - 1
      sender := if n.postSendBlockerCnt = 0 then .waiting p else .posting p } := by
  obtain ⟨-, -, q, waits⟩ | ⟨nonneg, ⟨none_, -⟩ | ⟨-, q, waits⟩⟩ := sound.wakes
  · rw [here] at waits
    cases waits
  · have bytes := sound.sender
    rw [here] at bytes
    refine ⟨?_, ?_, ?_, sound.acks, ?_, sound.handler, sound.received, sound.sent⟩
    · simp only [Node.outShare, Node.credits, Node.unprocessed, here]
      split <;> simp [Sender.counted]
    · simp only [Node.inShare, Node.unacked, Node.unprocessed, here]
      split <;> rfl
    · by_cases zero : n.postSendBlockerCnt = 0
      · simp only [zero, if_true]
        exact .inl ⟨none_, rfl, p, rfl⟩
      · simp only [zero, if_false]
        exact .inr ⟨by omega, .inl ⟨none_, nofun⟩⟩
    · simp only
      split <;> exact bytes
  · rw [here] at waits
    cases waits

theorem kept_waiting (here : n.sender = .waiting p) (token : n.postSendBlocker ≠ 0) :
    Kept n { n with postSendBlocker := n.postSendBlocker - 1, sender := .posting p } := by
  have bytes := sound.sender
  rw [here] at bytes
  refine ⟨?_, ?_, ?_, sound.acks, bytes, sound.handler, sound.received, sound.sent⟩
  · simp [Node.outShare, Node.credits, Node.unprocessed, here, Sender.counted]
  · simp [Node.inShare, Node.unacked, Node.unprocessed, here, Sender.imm]
  · obtain ⟨none_, -⟩ | ⟨nonneg, ⟨none_, -⟩ | ⟨one, -⟩⟩ := sound.wakes
    · omega
    · omega
    · exact .inr ⟨nonneg, .inl ⟨by simp only; omega, nofun⟩⟩

theorem kept_posting (here : n.sender = .posting p) :
    Kept n { n with wire := n.wire ++ [p], sender := .idle } := by
  have bytes : 0 < p.byteLen := by
    have := sound.sender
    rwa [here] at this
  refine ⟨?_, ?_, ?_, sound.acks, trivial, sound.handler, sound.received, ?_⟩
  · simp [Node.outShare, Node.credits, Node.unprocessed, here, Sender.counted, dataCount, bytes]
    omega
  · simp [Node.inShare, Node.unacked, Node.unprocessed, here, Sender.imm, ackSum, ackNum]
    omega
  · exact sound.wakes.other (by simp [here]) nofun
  · simp only [List.forall_mem_append, List.forall_mem_singleton]
    exact ⟨sound.sent, .inl bytes⟩

theorem send_kept (few : n.inShare ≤ bnum) (done : n.send = some n') : Kept n n' := by
  cases here : n.sender with
  | idle =>
    simp only [Node.send, here] at done
    cases done
  | taking byteLen msgs =>
    simp only [Node.send, here] at done
    cases done
    exact kept_taking sound few here
  | counting p =>
    simp only [Node.send, here] at done
    cases done
    exact kept_counting sound here
  | waiting p =>
    simp only [Node.send, here] at done
    split at done
    · cases done
    · rename_i token
      cases done
      exact kept_waiting sound here token
  | posting p =>
    simp only [Node.send, here] at done
    cases done
    exact (kept_posting sound here).agrees ⟨rfl, rfl, rfl, rfl, rfl, rfl, rfl⟩

theorem postSend_kept {byteLen : Nat} {msgs : List Nat}
    (done : n.postSend byteLen msgs = some n') : Kept n n' := by
  rw [Node.postSend] at done
  split at done
  · rename_i here
    split at done
    · cases done
    · split at done
      · cases done
        exact sound.kept
      · rename_i bytes
        cases done
        refine ⟨?_, ?_, ?_, sound.acks, Nat.pos_of_ne_zero bytes, sound.handler, sound.received, sound.sent⟩
        · simp [Node.outShare, Node.credits, Node.unprocessed, here, Sender.counted]
        · simp [Node.inShare, Node.unacked, Node.unprocessed, here, Sender.imm]
        · exact sound.wakes.other (by simp [here]) nofun
  · cases done

theorem Node.Sound.goto_ (h : Handler) (same : h.load = n.handler.load) (handler : h.Sound) :
    Kept n { n with handler := h } := by
  simp only [Handler.load, Prod.mk.injEq] at same
  obtain ⟨wcs, ctl, imm, wakes⟩ := same
  refine sound.move rfl ?_ rfl ?_ ?_ ?_ sound.acks handler
  · simp [Node.unprocessed, wcs]
  · simp [ctl]
  · simp [imm]
  · simp only [wakes]
    exact sound.wakes

variable {ctl ack : Nat}

theorem kept_inPoll {again : Bool} (k : Nat) (here : n.handler = .inPoll ctl ack) :
    Kept n { n with recvCq := n.recvCq.drop k, handler := .inEvent (n.recvCq.take k) again ctl ack } := by
  have aligned := sound.handler
  have wakes := sound.wakes
  rw [here] at aligned wakes
  refine sound.move rfl ?_ rfl ?_ ?_ wakes sound.acks aligned
  · simp [Node.unprocessed, here, Handler.wcs]
  · simp [here, Handler.ctl]
  · simp [here, Handler.imm]

theorem kept_inEvent (few : n.inShare ≤ bnum) {wc : Packet} {wcs : List Packet} {again : Bool} (here : n.handler = .inEvent (wc :: wcs) again ctl ack) :
    Kept n { n with
      handler := .inEvent wcs again (ctl + ackNum wc.imm) (if 0 < wc.byteLen then addAckNum ack 1 else ack) } := by
  have aligned : 2 ^ 16 ∣ ack := by
    have := sound.handler
    rwa [here] at this
  have nonneg := sound.unacked_nonneg
  -- one more acknowledgement still fits
  have one_more : ackNum (if 0 < wc.byteLen then addAckNum ack 1 else ack) = ackNum ack + dataCount [wc] ∧
      2 ^ 16 ∣ (if 0 < wc.byteLen then addAckNum ack 1 else ack) := by
    simp only [Node.inShare, Node.unacked, here, Handler.imm, ackNum, bnum] at few
    simp only [dataCount, List.countP_singleton, ackNum, addAckNum, decide_eq_true_eq]
    split <;> omega
  have split_ : n.unprocessed = [wc] ++ ({ n with
      handler := .inEvent wcs again (ctl + ackNum wc.imm) (if 0 < wc.byteLen then addAckNum ack 1 else ack) } :
      Node).unprocessed := by
    simp only [Node.unprocessed, here, Handler.wcs]
    rfl
  refine ⟨?_, ?_, ?_, sound.acks, sound.sender, one_more.2, ?_, sound.sent⟩
  · simp only [Node.outShare, Node.credits, split_, ackSum_append, here, Handler.ctl]
    simp only [ackSum, List.map_cons, List.map_nil, List.sum_singleton]
    omega
  · simp only [Node.inShare, Node.unacked, split_, dataCount_append, here, Handler.imm, one_more.1]
    omega
  · simpa [here, Handler.wakes] using sound.wakes
  · exact fun p mem => sound.received p (split_ ▸ List.mem_append_right _ mem)

theorem kept_addingAcks (here : n.handler = .addingAcks ctl ack) : Kept n { n with
      ackCnt := n.ackCnt + ack, handler := if 0 < ctl then .addingCredits ctl else .reading } := by
  have aligned : 2 ^ 16 ∣ ack := by
    have := sound.handler
    rwa [here] at this
  have wakes := sound.wakes
  rw [here] at wakes
  obtain ⟨nonneg, multiple⟩ := sound.acks
  have added : (n.ackCnt + ack) / 2 ^ 16 + ackNum 0 = n.ackCnt / 2 ^ 16 + ackNum ack := by
    simp only [ackNum]
    omega
  have acks : 0 ≤ n.ackCnt + ack ∧ 2 ^ 16 ∣ n.ackCnt + ack := by omega
  by_cases pos : 0 < ctl
  · rw [if_pos pos]
    refine sound.move rfl ?_ rfl ?_ ?_ wakes acks pos
    · simp [Node.unprocessed, here, Handler.wcs]
    · simp [here, Handler.ctl]
    · simp only [here, Handler.imm]
      exact added
  · rw [if_neg pos]
    refine sound.move rfl ?_ rfl ?_ ?_ wakes acks (Nat.dvd_zero _)
    · simp [Node.unprocessed, here, Handler.wcs]
    · simp only [here, Handler.ctl]
      omega
    · simp only [here, Handler.imm]
      exact added

theorem kept_addingCredits {ctl : Nat} (here : n.handler = .addingCredits ctl) : Kept n { n with
      postSendBlockerCnt := n.postSendBlockerCnt + ctl
      handler := if n.postSendBlockerCnt = -1 then .waking else .reading } := by
  have pos : 0 < ctl := by
    have := sound.handler
    rwa [here] at this
  have wakes : Wakes n.postSendBlocker n.postSendBlockerCnt n.sender := by
    simpa only [here, Handler.wakes, Nat.add_zero] using sound.wakes
  by_cases blocked : n.postSendBlockerCnt = -1
  · rw [if_pos blocked]
    refine sound.move rfl ?_ rfl ?_ ?_ ?_ sound.acks (Nat.dvd_zero _)
    · simp [Node.unprocessed, here, Handler.wcs]
    · simp only [here, Handler.ctl]
      omega
    · simp [here, Handler.imm]
    · obtain ⟨none_, -, waits⟩ | ⟨nonneg, -⟩ := wakes
      · simp only [none_, blocked]
        exact .inr ⟨by omega, .inr ⟨rfl, waits⟩⟩
      · omega
  · rw [if_neg blocked]
    refine sound.move rfl ?_ rfl ?_ ?_ ?_ sound.acks (Nat.dvd_zero _)
    · simp [Node.unprocessed, here, Handler.wcs]
    · simp only [here, Handler.ctl]
      omega
    · simp [here, Handler.imm]
    · obtain ⟨-, cnt, -⟩ | ⟨nonneg, others⟩ := wakes
      · exact absurd cnt blocked
      · exact .inr ⟨by simp only; omega, others⟩

theorem kept_waking (here : n.handler = .waking) :
    Kept n { n with postSendBlocker := n.postSendBlocker + 1, handler := .reading } := by
  have wakes := sound.wakes
  rw [here] at wakes
  refine sound.move rfl ?_ rfl ?_ ?_ wakes sound.acks (Nat.dvd_zero _)
  · simp [Node.unprocessed, here, Handler.wcs]
  · simp [here, Handler.ctl]
  · simp [here, Handler.imm]

end

theorem ackNum_addReadCompleteNum {imm cnt : Nat} (aligned : 2 ^ 16 ∣ imm) (small : imm ≤ bnum * 2 ^ 16)
    (fits : cnt < 2 ^ 16) : ackNum (addReadCompleteNum imm cnt) = ackNum imm := by
  simp only [ackNum, addReadCompleteNum, bnum] at small ⊢
  omega

def Node.AckFits (n : Node) : Prop := n.handler = .acking → n.SendsAck → n.readCompleteNum < 2 ^ 16

instance (n : Node) : Decidable n.AckFits := inferInstanceAs (Decidable (_ → _ → _))

theorem kept_acking (sound : n.Sound) (few : n.inShare ≤ bnum) (fits : n.AckFits) (here : n.handler = .acking) :
    Kept n n.sendAck := by
  have exact_ := sound.ackNum_toUint32 few
  have small := sound.ackCnt_lt few
  have wakes := sound.wakes
  rw [here] at wakes
  obtain ⟨nonneg, multiple⟩ := sound.acks
  have zero : (0 : Int) ≤ 0 ∧ (2 : Int) ^ 16 ∣ 0 := by decide
  rw [Node.sendAck]
  split
  · exact sound.goto_ .idle (by rw [here]; rfl) (Nat.dvd_zero _)
  · rename_i throttled
    split
    · rename_i nothing
      refine sound.move rfl ?_ rfl ?_ ?_ wakes zero (Nat.dvd_zero _)
      · simp [Node.unprocessed, here, Handler.wcs]
      · simp [here, Handler.ctl]
      · simp only [here, Handler.imm]
        omega
    · rename_i something
      have aligned : 2 ^ 16 ∣ toUint32 n.ackCnt := by omega
      have number := ackNum_addReadCompleteNum aligned (by omega) (fits here ⟨by omega, something⟩)
      refine sound.move rfl ?_ rfl ?_ ?_ wakes zero ?_
      · simp [Node.unprocessed, here, Handler.wcs]
      · simp [here, Handler.ctl]
      · simp only [here, Handler.imm, number]
        simp only [ackNum]
        omega
      · rw [Handler.Sound, number, ackNum]
        omega

theorem kept_postingAck (sound : n.Sound) {imm : Nat} (here : n.handler = .postingAck imm) :
    Kept n { n with wire := n.wire ++ [⟨0, [], imm⟩], handler := .idle } := by
  have pos : 0 < ackNum imm := by
    have := sound.handler
    rwa [here] at this
  refine ⟨?_, ?_, ?_, sound.acks, sound.sender, Nat.dvd_zero _, ?_, ?_⟩
  · simp [Node.outShare, Node.credits, Node.unprocessed, here, Handler.ctl, Handler.wcs, dataCount]
  · simp [Node.inShare, Node.unacked, Node.unprocessed, here, Handler.imm, Handler.wcs, ackSum, ackNum]
    omega
  · simpa [here, Handler.wakes] using sound.wakes
  · simpa [Node.unprocessed, here, Handler.wcs] using sound.received
  · simp only [List.forall_mem_append, List.forall_mem_singleton]
    exact ⟨sound.sent, .inr pos⟩

theorem recvBytes_agrees (wc : Packet) (h : Handler) :
    Agrees { n with handler := h } { n.recvBytes wc with handler := h } := by
  rw [Node.recvBytes]
  split <;> exact ⟨rfl, rfl, rfl, rfl, rfl, rfl, rfl⟩

theorem postRead_agrees (h : Handler) : Agrees { n with handler := h } { n.postRead with handler := h } := by
  rw [Node.postRead]
  split <;> exact ⟨rfl, rfl, rfl, rfl, rfl, rfl, rfl⟩

theorem completed_agrees {c : Completion} (done : n.completed c = some n') (h : Handler) :
    Agrees { n with handler := h } { n' with handler := h } := by
  cases c with
  | read =>
    simp only [Node.completed, Node.readSucc] at done
    split at done
    · cases done
    · split at done <;> (cases done; exact ⟨rfl, rfl, rfl, rfl, rfl, rfl, rfl⟩)
  | ack =>
    cases done
    exact ⟨rfl, rfl, rfl, rfl, rfl, rfl, rfl⟩
  | send id =>
    cases done
    exact ⟨rfl, rfl, rfl, rfl, rfl, rfl, rfl⟩

theorem handle_kept (sound : n.Sound) (few : n.inShare ≤ bnum) (fits : n.AckFits) (done : n.handle = some n') :
    Kept n n' := by
  have aligned := sound.handler
  rw [Node.handle] at done
  split at done
  · cases done
  · rename_i here
    cases done
    exact kept_inPoll sound _ here
  · rename_i again ctl ack here
    rw [here] at aligned
    cases done
    cases again with
    | true => exact sound.goto_ (.inPoll ctl ack) (by rw [here]; rfl) aligned
    | false => exact sound.goto_ (.addingAcks ctl ack) (by rw [here]; rfl) aligned
  · rename_i wc wcs again ctl ack here
    cases done
    exact (kept_inEvent sound few here).agrees (recvBytes_agrees wc _)
  · rename_i here
    cases done
    exact kept_addingAcks sound here
  · rename_i here
    cases done
    exact kept_addingCredits sound here
  · rename_i here
    cases done
    exact kept_waking sound here
  · rename_i here
    cases done
    exact (sound.goto_ (.outEvent _ _) (by rw [here]; rfl) (Nat.dvd_zero _)).agrees
      ⟨rfl, rfl, rfl, rfl, rfl, rfl, rfl⟩
  · rename_i again here
    cases done
    cases again with
    | true => exact sound.goto_ .outPoll (by rw [here]; rfl) (Nat.dvd_zero _)
    | false => exact sound.goto_ .reading (by rw [here]; rfl) (Nat.dvd_zero _)
  · rename_i c wcs again here
    obtain ⟨n₁, completed, eq⟩ := Option.map_eq_some_iff.mp done
    cases eq
    exact (sound.goto_ (.outEvent wcs again) (by rw [here]; rfl) (Nat.dvd_zero _)).agrees
      (completed_agrees completed _)
  · rename_i here
    cases done
    exact (sound.goto_ .acking (by rw [here]; rfl) (Nat.dvd_zero _)).agrees (postRead_agrees _)
  · rename_i here
    cases done
    exact kept_acking sound few fits here
  · rename_i here
    cases done
    exact (kept_postingAck sound here).agrees ⟨rfl, rfl, rfl, rfl, rfl, rfl, rfl⟩

theorem event_kept (sound : n.Sound) {incoming : Bool} (done : n.event incoming = some n') : Kept n n' := by
  rw [Node.event] at done
  split at done
  · rename_i here
    cases done
    cases incoming with
    | true => exact sound.goto_ (.inPoll 0 0) (by rw [here]; rfl) (Nat.dvd_zero _)
    | false => exact sound.goto_ .outPoll (by rw [here]; rfl) (Nat.dvd_zero _)
  · cases done

theorem complete_kept (sound : n.Sound) {i : Nat} (done : n.complete i = some n') : Kept n n' := by
  obtain ⟨c, -, eq⟩ := Option.map_eq_some_iff.mp done
  cases eq
  exact sound.kept.agrees ⟨rfl, rfl, rfl, rfl, rfl, rfl, rfl⟩

theorem act_kept (sound : n.Sound) (few : n.inShare ≤ bnum) {a : Action} (fits : a = .handle → n.AckFits)
    (done : n.act a = some n') : Kept n n' := by
  cases a with
  | postSend byteLen msgs => exact postSend_kept sound done
  | send => exact send_kept sound few done
  | event incoming => exact event_kept sound done
  | handle => exact handle_kept sound few (fits rfl) done
  | complete i => exact complete_kept sound done
  | deliver => cases done

structure Balanced (w : World) : Prop where
  sound : ∀ x, (w x).Sound
  total : ∀ x, (w x).outShare + (w (!x)).inShare = bnum

variable {w w' : World} {x : Bool}

theorem Balanced.inShare_le (balanced : Balanced w) (x : Bool) : (w x).inShare ≤ bnum := by
  have total := balanced.total (!x)
  rw [Bool.not_not] at total
  have := (balanced.sound (!x)).outShare_nonneg
  omega

theorem Balanced.local_ (balanced : Balanced w) (kept : Kept (w x) n') : Balanced (update w x n') := by
  have other : (!x) ≠ x := by simp
  constructor
  · intro y
    rcases eq_or_ne y x with rfl | ne
    · rw [update_self]
      exact kept.sound
    · rw [update_of_ne ne]
      exact balanced.sound y
  · intro y
    have total := balanced.total y
    rcases eq_or_ne y x with rfl | ne
    · rw [update_self, update_of_ne other, kept.out]
      exact total
    · have peer : (!y) = x := (Bool.eq_not_of_ne ne.symm).symm
      rw [update_of_ne ne, peer, update_self, kept.in_, ← peer]
      exact total

theorem Balanced.arrive (balanced : Balanced w) (done : arrive w x = some w') : Balanced w' := by
  rw [Rdma.arrive] at done
  split at done
  · cases done
  · rename_i p wire here
    cases done
    have other : (!x) ≠ x := by simp
    have from_ := balanced.sound x
    have to_ := balanced.sound (!x)
    -- what the packet carries
    have out_from : (w x).outShare = ({ w x with wire := wire } : Node).outShare + dataCount [p] := by
      simp only [Node.outShare, Node.credits, Node.unprocessed, here, dataCount_cons p wire]
      omega
    have in_from : (w x).inShare = ({ w x with wire := wire } : Node).inShare + ackSum [p] := by
      simp only [Node.inShare, Node.unacked, Node.unprocessed, here, ackSum_cons p wire]
      omega
    have out_to : ({ w (!x) with recvCq := (w (!x)).recvCq ++ [p] } : Node).outShare =
        (w (!x)).outShare + ackSum [p] := by
      simp only [Node.outShare, Node.credits, Node.unprocessed, ackSum_append]
      omega
    have in_to : ({ w (!x) with recvCq := (w (!x)).recvCq ++ [p] } : Node).inShare =
        (w (!x)).inShare + dataCount [p] := by
      simp only [Node.inShare, Node.unacked, Node.unprocessed, dataCount_append]
      omega
    have useful : p.Useful := from_.sent p (here ▸ List.mem_cons_self ..)
    constructor
    · intro y
      rcases eq_or_ne y (!x) with rfl | ne
      · rw [update_self]
        refine ⟨to_.wakes, to_.acks, to_.sender, to_.handler, ?_, to_.sent⟩
        simp only [Node.unprocessed, ← List.append_assoc]
        simp only [List.forall_mem_append, List.forall_mem_singleton]
        exact ⟨List.forall_mem_append.mp to_.received, useful⟩
      · have same : y = x := by simpa using Bool.eq_not_of_ne ne
        rw [update_of_ne ne, same, update_self]
        exact ⟨from_.wakes, from_.acks, from_.sender, from_.handler, from_.received,
          fun q mem => from_.sent q (here ▸ List.mem_cons_of_mem _ mem)⟩
    · intro y
      have total := balanced.total y
      rcases eq_or_ne y (!x) with rfl | ne
      · rw [Bool.not_not] at total ⊢
        rw [update_self, update_of_ne other.symm, update_self]
        omega
      · have same : y = x := by simpa using Bool.eq_not_of_ne ne
        subst same
        rw [update_of_ne ne, update_self, update_self]
        omega

def Fits (w : World) (x : Bool) (a : Action) : Prop := a = .handle → (w x).AckFits

instance (w : World) (x : Bool) (a : Action) : Decidable (Fits w x a) := inferInstanceAs (Decidable (_ → _))

inductive FittingStep : World → World → Prop
  | act {w w' : World} (x : Bool) (a : Action) (fits : Fits w x a) (done : act w x a = some w') : FittingStep w w'

def Clean (w : World) : Prop := w = connected fun _ => 0

theorem Balanced.step (balanced : Balanced w) {a : Action} (fits : Fits w x a) (done : act w x a = some w') :
    Balanced w' := by
  have one_side (done : ((w x).act a).map (update w x) = some w') : Balanced w' := by
    obtain ⟨n', moved, rfl⟩ := Option.map_eq_some_iff.mp done
    exact balanced.local_ (act_kept (balanced.sound x) (balanced.inShare_le x) fits moved)
  cases a with
  | deliver => exact balanced.arrive done
  | _ => exact one_side done

theorem balanced_of_reachable (reachable : Reachable Clean FittingStep w) : Balanced w := by
  refine Reachable.invariant Balanced ?_ ?_ reachable
  · rintro w rfl
    have full : (0 : Int) ≤ bnum := by decide
    have none_ : (0 : Int) ≤ 0 ∧ (2 : Int) ^ 16 ∣ 0 := by decide
    refine ⟨fun x => ⟨.inr ⟨full, .inl ⟨rfl, nofun⟩⟩, none_, trivial, Nat.dvd_zero _, nofun, nofun⟩, fun x => ?_⟩
    cases x <;> decide
  · rintro w w' balanced ⟨x, a, fits, done⟩
    exact balanced.step fits done

theorem length_le_of_useful {ps : List Packet} (useful : ∀ p ∈ ps, p.Useful) :
    ps.length ≤ dataCount ps + ackSum ps := by
  induction ps with
  | nil => exact Nat.zero_le _
  | cons p ps ih =>
    rw [List.forall_mem_cons] at useful
    have rest := ih useful.2
    have one : 1 ≤ dataCount [p] + ackSum [p] := by
      simp only [dataCount, ackSum, List.countP_singleton, List.map_cons, List.map_nil, List.sum_singleton,
        decide_eq_true_eq]
      obtain bytes | acks := useful.1
      · rw [if_pos bytes]
        omega
      · omega
    rw [List.length_cons, dataCount_cons, ackSum_cons]
    omega

/-- In every run from two sockets with `_ack_cnt` zero in which the reported reads fit, the credits of both
directions are conserved, and there is always a receive buffer for a packet. -/
theorem credits_conserved (reachable : Reachable Clean FittingStep w) (x : Bool) :
    total w x = bnum ∧ (w x).postSendBlockerCnt ≤ bnum ∧ (w x).unprocessed.length ≤ 4 * bnum := by
  have balanced := balanced_of_reachable reachable
  have sound := balanced.sound x
  have useful := length_le_of_useful sound.received
  have here := balanced.total x
  have there := balanced.inShare_le x
  have peer := (balanced.sound (!x)).inShare_nonneg
  have credits := sound.credits_nonneg
  have nonneg := sound.unacked_nonneg
  refine ⟨(total_eq w x).trans here, ?_, ?_⟩
  · simp only [Node.outShare, Node.credits] at here
    omega
  · simp only [Node.outShare] at here
    simp only [Node.inShare, Node.unacked] at there
    omega

theorem credits_conserved_once : ∃ w, Reachable Clean FittingStep w ∧ (w false).recvCq.length = 1 ∧
    total w false = bnum := by
  let run : List (Bool × Action) :=
    [(false, .postSend 1 [1]), (false, .send), (false, .send), (false, .send), (false, .deliver),
      (true, .event true)] ++ List.replicate 7 (true, .handle) ++ [(true, .deliver)]
  have ran : (run.foldlM (fun w a => if Fits w a.1 a.2 then act w a.1 a.2 else none) (connected fun _ => 0)).any
      (fun w => (w false).recvCq.length = 1) = true := by decide +kernel
  obtain ⟨w, run, arrived⟩ := (Option.any_eq_true ..).1 ran
  have reachable : Reachable Clean FittingStep w := by
    refine Reachable.foldlM (fun a _ w w' done => ?_) (.initial rfl) run
    obtain ⟨fits, done⟩ := Option.ite_none_right_eq_some.mp done
    exact .act a.1 a.2 fits done
  exact ⟨w, reachable, of_decide_eq_true arrived, (credits_conserved reachable false).1⟩

end Prpc.Rdma
