import Prpc.Rpc.Rdma.Credits

namespace Prpc.Rdma
open Lib

variable {w w' : World} {x : Bool} {n n' : Node}

def Sender.waits : Sender → Bool
  | .waiting _ => true
  | _ => false

def Node.Blocked (n : Node) : Prop := n.sender.waits ∧ n.postSendBlocker = 0

instance (n : Node) : Decidable n.Blocked := inferInstanceAs (Decidable (_ ∧ _))

def Node.Quiet (n : Node) : Prop := n.wire = [] ∧ n.recvCq = [] ∧ n.handler = .idle ∧ n.ackCnt = 0

instance (n : Node) : Decidable n.Quiet := inferInstanceAs (Decidable (_ ∧ _))

def MutualBlock (w : World) : Prop := ∀ x, (w x).Blocked ∧ (w x).Quiet

instance (w : World) : Decidable (MutualBlock w) := inferInstanceAs (Decidable (∀ _, _ ∧ _))

def Node.captured (n : Node) : Nat := ackNum n.sender.imm

/-- The exchange in `post_send` takes all acknowledgements while the peer's sender has all of the other
direction. -/
def TakesLast (w : World) (x : Bool) : Prop := (w x).ackCnt = bnum * 2 ^ 16 ∧ (w (!x)).captured = bnum

instance (w : World) (x : Bool) : Decidable (TakesLast w x) := inferInstanceAs (Decidable (_ ∧ _))

def Sender.takes : Sender → Bool
  | .taking .. => true
  | _ => false

def Careful (w : World) (x : Bool) (a : Action) : Prop :=
  Fits w x a ∧ (a = .send → (w x).sender.takes → ¬ TakesLast w x)

instance (w : World) (x : Bool) (a : Action) : Decidable (Careful w x a) :=
  inferInstanceAs (Decidable (_ ∧ (_ → _)))

inductive CarefulStep : World → World → Prop
  | act {w w' : World} (x : Bool) (a : Action) (careful : Careful w x a) (done : act w x a = some w') :
      CarefulStep w w'

theorem handle_sender (done : n.handle = some n') : n'.sender = n.sender := by
  rw [Node.handle] at done
  split at done
  case h_1 => cases done
  case h_4 =>
      cases done
      exact (recvBytes_agrees (n := n) _ .idle).sender
  case h_10 =>
      obtain ⟨n₁, completed, rfl⟩ := Option.map_eq_some_iff.mp done
      exact (completed_agrees completed .idle).sender
  case h_11 =>
      cases done
      exact (postRead_agrees (n := n) .idle).sender
  case h_12 =>
      cases done
      rw [Node.sendAck]
      split
      · rfl
      · split <;> rfl
  all_goals
    cases done
    rfl

theorem captured_act {a : Action} (sound : n.Sound) (few : n.inShare ≤ bnum) (done : n.act a = some n')
    (all : n'.captured = bnum) :
    n.captured = bnum ∨ a = .send ∧ n.sender.takes ∧ n.ackCnt = bnum * 2 ^ 16 := by
  have none_ : ackNum 0 ≠ bnum := by decide
  cases a with
  | postSend byteLen msgs =>
    simp only [Node.act, Node.postSend] at done
    split at done
    · split at done
      · cases done
      · split at done
        · cases done
          exact .inl all
        · cases done
          exact absurd all none_
    · cases done
  | send =>
    cases here : n.sender with
    | idle =>
      simp only [Node.act, Node.send, here] at done
      cases done
    | taking byteLen msgs =>
      simp only [Node.act, Node.send, here] at done
      cases done
      refine .inr ⟨rfl, rfl, ?_⟩
      have exact_ := sound.ackNum_toUint32 few
      have multiple := sound.acks.2
      simp only [Node.captured, Sender.imm, ackNum] at all
      omega
    | counting p =>
      simp only [Node.act, Node.send, here] at done
      cases done
      left
      simp only [Node.captured] at all
      rw [Node.captured, here]
      split at all <;> exact all
    | waiting p =>
      simp only [Node.act, Node.send, here] at done
      split at done
      · cases done
      · cases done
        left
        rw [Node.captured, here]
        exact all
    | posting p =>
      simp only [Node.act, Node.send, here] at done
      cases done
      exact absurd all none_
  | event incoming =>
    simp only [Node.act, Node.event] at done
    split at done
    · cases done
      exact .inl all
    · cases done
  | handle =>
    left
    rw [Node.captured, ← handle_sender done]
    exact all
  | complete i =>
    obtain ⟨c, -, rfl⟩ := Option.map_eq_some_iff.mp done
    exact .inl all
  | deliver => cases done

def Apart (w : World) : Prop := ¬ ∀ x, (w x).captured = bnum

theorem Apart.step {a : Action} (apart : Apart w) (balanced : Balanced w) (careful : Careful w x a)
    (done : act w x a = some w') : Apart w' := by
  intro all
  have one_side (done : ((w x).act a).map (Function.update w x) = some w') : False := by
    obtain ⟨n', moved, rfl⟩ := Option.map_eq_some_iff.mp done
    have peer : (w (!x)).captured = bnum := by
      have := all (!x)
      rwa [Function.update_of_ne (by simp)] at this
    have here := all x
    rw [Function.update_self] at here
    obtain before | ⟨send, takes, every⟩ := captured_act (balanced.sound x) (balanced.inShare_le x) moved here
    · refine apart fun y => ?_
      rcases eq_or_ne y x with rfl | ne
      · exact before
      · rw [Bool.eq_not_of_ne ne]
        exact peer
    · exact careful.2 send takes ⟨every, peer⟩
  cases a with
  | deliver =>
    simp only [act, arrive] at done
    split at done
    · cases done
    · cases done
      refine apart fun y => ?_
      have here := all y
      rcases eq_or_ne y (!x) with rfl | ne
      · rw [Function.update_self] at here
        exact here
      · have same : y = x := by simpa using Bool.eq_not_of_ne ne
        rw [Function.update_of_ne ne, same, Function.update_self] at here
        rw [same]
        exact here
  | _ => exact one_side done

theorem apart_of_reachable (reachable : Reachable Clean CarefulStep w) : Balanced w ∧ Apart w := by
  refine Reachable.invariant (fun w => Balanced w ∧ Apart w) ?_ ?_ reachable
  · rintro w clean
    refine ⟨balanced_of_reachable (.initial clean), ?_⟩
    rw [clean]
    exact fun all => absurd (all true) (by decide)
  · rintro w w' ⟨balanced, apart⟩ ⟨x, a, careful, done⟩
    exact ⟨balanced.step careful.1 done, apart.step balanced careful done⟩

theorem Balanced.captured_of_block (balanced : Balanced w) (block : MutualBlock w) (x : Bool) :
    (w (!x)).captured = bnum := by
  obtain ⟨⟨waits, blocker⟩, wire, recvCq, handler, -⟩ := block x
  obtain ⟨-, wire', recvCq', handler', acks'⟩ := block (!x)
  have total := balanced.total x
  have wakes := (balanced.sound x).wakes
  rw [blocker, handler] at wakes
  cases here : (w x).sender with
  | waiting p =>
    obtain ⟨-, cnt, -⟩ | ⟨-, ⟨-, other⟩ | ⟨one, -⟩⟩ := wakes
    · simp only [Node.outShare, Node.credits, Node.inShare, Node.unacked, Node.unprocessed, here, cnt, wire,
        wire', recvCq, recvCq', handler, handler', acks', Handler.wcs, Handler.ctl, Handler.imm, Sender.counted,
        dataCount, ackSum, ackNum] at total
      rw [Node.captured, ackNum]
      simp at total
      omega
    · exact absurd here (other p)
    · cases one
  | _ =>
    rw [here] at waits
    cases waits

/-- In every run from two sockets with `_ack_cnt` zero in which the reported reads fit and no sender takes all
acknowledgements while the other one has all, the two sides never block each other. -/
theorem no_mutual_block (reachable : Reachable Clean CarefulStep w) : ¬ MutualBlock w := by
  obtain ⟨balanced, apart⟩ := apart_of_reachable reachable
  intro block
  refine apart fun x => ?_
  have all := balanced.captured_of_block block (!x)
  rwa [Bool.not_not] at all

def sendAll (x : Bool) : List (Bool × Action) :=
  (List.replicate bnum [(x, .postSend 1 []), (x, .send), (x, .send), (x, .send)]).flatten

def arriveAll (x : Bool) : List (Bool × Action) :=
  List.replicate bnum (x, .deliver) ++ List.replicate bnum (x, .complete 0) ++
    (x, .event false) :: List.replicate (bnum + 4) (x, .handle)

def receiveAll (x : Bool) : List (Bool × Action) := (x, .event true) :: List.replicate (bnum + 3) (x, .handle)

def takeAll (x : Bool) : List (Bool × Action) := [(x, .postSend 1 []), (x, .send), (x, .send)]

theorem no_mutual_block_full : ∃ w, Reachable Clean CarefulStep w ∧ (w false).Blocked ∧ ¬ MutualBlock w := by
  let run := sendAll false ++ arriveAll false ++ takeAll false
  have ran : (run.foldlM (fun w a => if Careful w a.1 a.2 then act w a.1 a.2 else none)
      (connected fun _ => 0)).any (fun w => (w false).Blocked) = true := by decide +kernel
  obtain ⟨w, run, blocked⟩ := (Option.any_eq_true ..).1 ran
  have reachable : Reachable Clean CarefulStep w := by
    refine Reachable.foldlM (fun a _ w w' done => ?_) (.initial rfl) run
    obtain ⟨careful, done⟩ := Option.ite_none_right_eq_some.mp done
    exact .act a.1 a.2 careful done
  exact ⟨w, reachable, of_decide_eq_true blocked, no_mutual_block reachable⟩

/-- Each side sends eight buffers, receives the eight of its peer and takes the acknowledgements for a ninth
buffer, for which it has no credit. -/
theorem mutual_block : ∃ w, Reachable Clean Step w ∧ MutualBlock w := by
  let run := sendAll false ++ sendAll true ++ arriveAll false ++ arriveAll true ++
    (receiveAll false ++ takeAll false ++ [(false, .handle), (false, .handle)]) ++
    (receiveAll true ++ takeAll true ++ [(true, .handle), (true, .handle)])
  have ran : (run.foldlM (fun w a => act w a.1 a.2) (connected fun _ => 0)).any (fun w => MutualBlock w) = true := by
    decide +kernel
  obtain ⟨w, run, block⟩ := (Option.any_eq_true ..).1 ran
  exact ⟨w, .foldlM (fun a _ _ _ done => .act a.1 a.2 done) (.initial rfl) run, of_decide_eq_true block⟩

end Prpc.Rdma
