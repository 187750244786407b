import Prpc.Rpc.Rdma.Credits

/-!
`_read_complete_num` is only sent with an acknowledgement of `send_ack`.
-/

namespace Prpc.Rdma
open Lib

variable {w w' : World} {n : Node} {r : Nat}

def Node.addReads (n : Node) (r : Nat) : Node := { n with readCompleteNum := n.readCompleteNum + r }

theorem addReads_addReads (n : Node) (r k : Nat) : (n.addReads r).addReads k = n.addReads (r + k) := by
  simp [Node.addReads, Nat.add_assoc]

theorem readSucc_addReads (n : Node) (r : Nat) : (n.addReads r).readSucc = n.readSucc.map (·.addReads r) := by
  simp only [Node.readSucc, Node.addReads]
  split
  · rfl
  · split
    · simp [Nat.add_right_comm]
    · rfl

theorem completed_addReads (n : Node) (r : Nat) (c : Completion) :
    (n.addReads r).completed c = (n.completed c).map (·.addReads r) := by
  cases c with
  | read => exact readSucc_addReads n r
  | ack => rfl
  | send id => rfl

theorem sendAck_addReads (silent : ¬ n.SendsAck) (r : Nat) : (n.addReads r).sendAck = n.sendAck.addReads r := by
  by_cases throttled : n.uncompleteAckCnt ≥ bnum / 2 + 1
  · simp [Node.sendAck, Node.addReads, throttled]
  · have nothing : toUint32 n.ackCnt = 0 := by
      by_contra something
      exact silent ⟨by omega, something⟩
    simp [Node.sendAck, Node.addReads, throttled, nothing]

theorem recvBytes_addReads (n : Node) (r : Nat) (wc : Packet) :
    (n.addReads r).recvBytes wc = (n.recvBytes wc).addReads r := by
  simp only [Node.recvBytes]
  split <;> rfl

theorem postRead_addReads (n : Node) (r : Nat) : (n.addReads r).postRead = n.postRead.addReads r := by
  by_cases nothing : n.pendingReadWrs = 0 ∨ n.uncompleteReadCnt = bnum
  · simp [Node.postRead, Node.addReads, nothing]
  · simp [Node.postRead, Node.addReads, nothing]

def Node.Reports (n : Node) (a : Action) : Prop := a = .handle ∧ n.handler = .acking ∧ n.SendsAck

instance (n : Node) (a : Action) : Decidable (n.Reports a) := inferInstanceAs (Decidable (_ ∧ _))

theorem handle_addReads (silent : ¬ n.Reports .handle) (r : Nat) :
    (n.addReads r).handle = n.handle.map (·.addReads r) := by
  have same : (n.addReads r).handler = n.handler := rfl
  cases here : n.handler with
  | inEvent wcs again ctl ack =>
    cases wcs with
    | nil => simp only [Node.handle, here, Option.map_some, Node.addReads]
    | cons wc wcs =>
      simp only [Node.handle, same, here, Option.map_some, recvBytes_addReads]
      rfl
  | outEvent wcs again =>
    cases wcs with
    | nil => simp only [Node.handle, here, Option.map_some, Node.addReads]
    | cons c wcs =>
      simp only [Node.handle, same, here, completed_addReads, Option.map_map]
      rfl
  | reading =>
    simp only [Node.handle, same, here, Option.map_some, postRead_addReads]
    rfl
  | acking =>
    simp [Node.handle, same, here, sendAck_addReads (fun sends => silent ⟨rfl, here, sends⟩) r]
  | _ => simp [Node.handle, here, Node.addReads]

theorem act_addReads {a : Action} (silent : ¬ n.Reports a) (r : Nat) :
    (n.addReads r).act a = (n.act a).map (·.addReads r) := by
  cases a with
  | postSend byteLen msgs =>
    simp only [Node.act, Node.postSend, Node.addReads]
    cases here : n.sender with
    | idle =>
      simp only
      by_cases busy : n.getSendBufferBlocker[n.sendId]? ≠ some false ∨ bsize < byteLen
      · simp [busy]
      · by_cases empty : byteLen = 0
        · subst empty
          simp only [busy, if_true, if_false, Option.map_some, here]
        · simp [busy, empty]
    | _ => rfl
  | send =>
    simp only [Node.act, Node.send, Node.addReads]
    cases n.sender with
    | waiting p =>
      by_cases none_ : n.postSendBlocker = 0
      · simp [none_]
      · simp [none_]
    | _ => rfl
  | event incoming =>
    simp only [Node.act, Node.event, Node.addReads]
    cases n.handler <;> rfl
  | handle => exact handle_addReads silent r
  | complete i =>
    simp only [Node.act, Node.complete, Node.addReads, Option.map_map]
    rfl
  | deliver => rfl

def grown (r : Nat) (w : World) : World := fun x => if x then (w x).addReads r else w x

theorem grown_update (r : Nat) (w : World) (x : Bool) (n : Node) :
    Function.update (grown r w) x (if x then n.addReads r else n) = grown r (Function.update w x n) := by
  funext y
  rcases eq_or_ne y x with rfl | ne
  · simp [grown]
  · simp [grown, Function.update_of_ne ne]

theorem act_grown {x : Bool} {a : Action} (silent : ¬ (w true).Reports a) (done : act w x a = some w') :
    act (grown r w) x a = some (grown r w') := by
  have one_side (done : ((w x).act a).map (Function.update w x) = some w') :
      ((grown r w x).act a).map (Function.update (grown r w) x) = some (grown r w') := by
    obtain ⟨n', moved, rfl⟩ := Option.map_eq_some_iff.mp done
    rw [← grown_update]
    cases x with
    | false =>
      have same : grown r w false = w false := rfl
      rw [same, moved]
      rfl
    | true =>
      have more : grown r w true = (w true).addReads r := rfl
      rw [more, act_addReads silent, moved]
      rfl
  cases a with
  | deliver =>
    simp only [act, arrive] at done ⊢
    have wire : (grown r w x).wire = (w x).wire := by cases x <;> rfl
    rw [wire]
    cases here : (w x).wire with
    | nil =>
      simp only [here] at done
      cases done
    | cons p wire =>
      simp only [here] at done
      cases done
      rw [← grown_update, ← grown_update]
      cases x <;> rfl
  | _ => exact one_side done

def silentAct (w : World) (a : Bool × Action) : Option World :=
  if (w true).Reports a.2 then none else act w a.1 a.2

theorem reachable_grown {actions : List (Bool × Action)} (reachable : Reachable Clean Step (grown r w))
    (run : actions.foldlM silentAct w = some w') :
    Reachable Clean Step (grown r w') := by
  induction actions generalizing w with
  | nil =>
    cases run
    exact reachable
  | cons a actions ih =>
    rw [List.foldlM_cons, Option.bind_eq_bind, Option.bind_eq_some_iff] at run
    obtain ⟨w₁, first, rest⟩ := run
    obtain ⟨silent, done⟩ := Option.ite_none_left_eq_some.mp first
    exact ih (reachable.next (.act a.1 a.2 (act_grown silent done))) rest

/-- The first side sends a message with a block. The sender of the second side takes the acknowledgement before
the handler can. The first side acknowledges that, and then everything is as before. -/
def exchange : List (Bool × Action) :=
  ([(false, .postSend 1 [1]), (false, .send), (false, .send), (false, .send), (false, .deliver),
    (false, .complete 0), (false, .event false)] : List (Bool × Action)) ++ List.replicate 5 (false, Action.handle) ++
  (true, Action.event true) :: List.replicate 4 (true, Action.handle) ++
  ([(true, .postSend 1 []), (true, .send), (true, .send), (true, .send), (true, .handle), (true, .handle),
    (true, .complete 0), (true, .complete 0), (true, .event false)] : List (Bool × Action)) ++
  List.replicate 6 (true, Action.handle) ++ ([(true, .deliver), (false, .event true)] : List (Bool × Action)) ++
  List.replicate 8 (false, Action.handle) ++
  ([(false, .deliver), (false, .complete 0), (false, .event false)] : List (Bool × Action)) ++
  List.replicate 5 (false, Action.handle) ++ (true, Action.event true) :: List.replicate 7 (true, Action.handle)

theorem exchanges : (List.replicate bnum exchange).flatten.foldlM silentAct (connected fun _ => 0) =
    some (grown bnum (connected fun _ => 0)) := by
  have ran : ((List.replicate bnum exchange).flatten.foldlM silentAct (connected fun _ => 0)).any
      (fun w => ∀ x, w x = grown bnum (connected fun _ => 0) x) = true := by decide +kernel
  obtain ⟨w, run, same⟩ := (Option.any_eq_true ..).1 ran
  rw [run]
  exact congrArg some (funext (of_decide_eq_true same))

theorem grown_reachable (k : Nat) : Reachable Clean Step (grown (k * bnum) (connected fun _ => 0)) := by
  induction k with
  | zero =>
    refine .initial (funext fun x => ?_)
    cases x <;> rfl
  | succ k ih =>
    have more := reachable_grown ih exchanges
    have sum : grown (k * bnum) (grown bnum (connected fun _ => 0)) =
        grown ((k + 1) * bnum) (connected fun _ => 0) := by
      funext x
      cases x with
      | false => rfl
      | true =>
        simp only [grown, if_true, addReads_addReads]
        rw [Nat.succ_mul, Nat.add_comm]
    rwa [sum] at more

/-- `_ack_cnt` is not set, so that the sockets may begin with a credit too many. If it is zero, a credit is made
when `2 ^ 16` reads are added to one acknowledgement. -/
theorem credits_not_conserved : (∃ w, RdmaReachable w ∧ total w false = bnum + 1) ∧
    ∃ w, Reachable Clean Step w ∧ total w false = bnum + 1 := by
  refine ⟨⟨connected fun _ => 2 ^ 16, .initial ⟨_, rfl⟩, by decide⟩, ?_⟩
  let run : List (Bool × Action) :=
    [(false, .postSend 1 []), (false, .send), (false, .send), (false, .send), (false, .deliver),
      (true, .event true)] ++ List.replicate 6 (true, .handle)
  have ran : (run.foldlM (fun w a => act w a.1 a.2) (grown (2 ^ 13 * bnum) (connected fun _ => 0))).any
      (fun w => total w false = bnum + 1) = true := by decide +kernel
  obtain ⟨w, run, more⟩ := (Option.any_eq_true ..).1 ran
  exact ⟨w, .foldlM (fun a _ _ _ done => .act a.1 a.2 done) (grown_reachable _) run, of_decide_eq_true more⟩

end Prpc.Rdma
