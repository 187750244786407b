import Prpc.MasterClient.Lock.Exclusion
import Prpc.MasterClient.Nodes

namespace Prpc.MasterClient
open Lib Master

variable {root : RootPath} {s s' : LockState} {t : ThreadId} {G : Text → Nat}
  {Q : Text → Nat → Option ClientId}

inductive LockPc.Next : LockPc → LockPc → Prop
  | addPath (name : Text) : Next (.addPath name) (.genNode name)
  | genNode (name gen : Text) : Next (.genNode name) (.watch name gen)
  | watch (name gen : Text) : Next (.watch name gen) (.waiting name gen)
  | wait (name gen : Text) : Next (.waiting name gen) (.waiting name gen)
  | first (name gen : Text) : Next (.waiting name gen) (.lockMutex name gen)
  | lockMutex (name gen : Text) : Next (.lockMutex name gen) (.emplace name gen)
  | emplace (name gen : Text) : Next (.emplace name gen) (.holding name gen)
  | find (name gen path : Text) : Next (.find name gen) (.delNode name gen path)
  | delNode (name gen path : Text) : Next (.delNode name gen path) (.erase name gen)
  | erase (name gen : Text) : Next (.erase name gen) .idle
  | failed (pc : LockPc) : Next pc .failed

theorem ask_next {α : Type} {answer : State × Option α} {next : α → LockPc}
    (asked : s.ask t answer next = some s') (ok : ∀ a, (s.pc t).Next (next a)) :
    ∃ pc, s'.pc = Function.update s.pc t pc ∧ (s.pc t).Next pc ∧ s'.offline = s.offline := by
  unfold LockState.ask at asked
  split at asked
  · cases asked
  · split at asked
    · cases asked
      exact ⟨.failed, rfl, .failed _, rfl⟩
    · rename_i a
      cases asked
      exact ⟨next a, rfl, ok a, rfl⟩

theorem lockAdvance_next (advance : lockAdvance root s t = some s') :
    ∃ pc, s'.pc = Function.update s.pc t pc ∧ (s.pc t).Next pc ∧ s'.offline = s.offline := by
  unfold lockAdvance at advance
  have asks := @ask_next s s' t
  cases at_ : s.pc t with
    simp only [at_, Option.ite_none_right_eq_some, Option.some.injEq, reduceCtorEq] at advance asks
  | addPath name =>
    exact asks advance fun _ => .addPath name
  | genNode name =>
    refine asks advance fun gen => ?_
    split
    · exact .failed _
    · exact .genNode name gen
  | watch name gen =>
    exact asks advance fun _ => .watch name gen
  | waiting name gen =>
    refine asks advance fun children => ?_
    unfold afterChildren
    split
    · exact .failed _
    · exact .failed _
    · split
      · exact .first name gen
      · exact .wait name gen
  | lockMutex name gen =>
    obtain ⟨-, rfl⟩ := advance
    exact ⟨_, rfl, .lockMutex name gen, rfl⟩
  | emplace name gen =>
    split at advance
    · cases advance
      exact ⟨_, rfl, .failed _, rfl⟩
    · cases advance
      exact ⟨_, rfl, .emplace name gen, rfl⟩
  | find name gen =>
    obtain ⟨-, advance⟩ := advance
    split at advance
    · cases advance
      exact ⟨_, rfl, .failed _, rfl⟩
    · cases advance
      exact ⟨_, rfl, .find name gen _, rfl⟩
  | delNode name gen path =>
    refine asks advance fun deleted => ?_
    split
    · exact .delNode name gen path
    · exact .failed _
  | erase name gen =>
    subst advance
    exact ⟨_, rfl, .erase name gen, rfl⟩

theorem ask_master {α : Type} {answer : State × Option α} {next : α → LockPc}
    (asked : s.ask t answer next = some s') : s'.master = answer.1 := by
  unfold LockState.ask at asked
  split at asked
  · cases asked
  · split at asked <;> cases asked <;> rfl

theorem below_lockPath (root : RootPath) (name : Text) :
    Below (root.join pathLock) (root.join (lockPath name)) :=
  .inr ⟨name, join_lockPath root name⟩

theorem LockInv.sameBelow (inv : LockInv root s G Q) {base : Text} (exist : base ∈ s.master.path)
    (apart : ∀ p, Below (root.join pathLock) p → ¬ Below base p)
    (advance : lockAdvance root s t = some s') : SameBelow base s.master s'.master := by
  unfold lockAdvance at advance
  have requests : ∀ {c : ClientId} {path p : Text} {req : Request}, req.target = some p →
      Below (root.join pathLock) p → SameBelow base s.master (call s.master c path req).1 :=
    fun target below => call_sameBelow inv.queues.tree (.inl exist) target (apart _ below)
  cases at_ : s.pc t with
    simp only [at_, Option.ite_none_right_eq_some, Option.some.injEq, reduceCtorEq] at advance
  | addPath name | genNode name | waiting name gen =>
    rw [ask_master advance]
    exact requests rfl (below_lockPath root name)
  | watch name gen =>
    have segment := inv.tickets.name t name (by rw [at_]; rfl)
    rw [ask_master advance, treeWatch_eq inv.queues.tree (lockPath_valid segment)]
    exact .refl _ _
  | lockMutex name gen =>
    obtain ⟨-, rfl⟩ := advance
    exact .refl _ _
  | emplace name gen =>
    split at advance <;> cases advance <;> exact .refl _ _
  | find name gen =>
    obtain ⟨-, advance⟩ := advance
    split at advance <;> cases advance <;> exact .refl _ _
  | delNode name gen path =>
    obtain rfl := inv.table.deletes t name gen path (by rw [at_]; rfl)
    rw [ask_master advance]
    refine requests rfl ?_
    rw [join_child]
    exact (below_lockPath root name).child gen
  | erase name gen =>
    subst advance
    exact .refl _ _

theorem LockReachable.call {names : Text → Prop} (reachable : LockReachable root names s)
    {c : ClientId} (online : c ∉ s.offline) {p path : Text} {req : Request}
    (target : req.target = some p) (outside : ¬ Below (root.join pathLock) p) :
    LockReachable root names { s with master := (call s.master c path req).1 } := by
  rcases call_state s.master c path req with same | ⟨out, handled, same⟩
  · rw [same]
    exact reachable
  · rw [same]
    exact reachable.next (.other c online target outside handled)

section
variable {names : Text → Prop} {c : ClientId} {path value : Text} {ephemeral : Bool} {m : State}

section
variable (reachable : LockReachable root names s) (online : c ∉ s.offline) (outside : ¬ Below (root.join pathLock) (root.join path))
include reachable online outside

theorem LockReachable.add {answer : Option Bool}
    (eq : treeNodeAdd root s.master c path value ephemeral = (m, answer)) :
    LockReachable root names { s with master := m } := by
  have state : (MasterClient.call s.master c (root.join path)
      (.add (root.join path) value ephemeral)).1 = m := congrArg Prod.fst eq
  rw [← state]
  exact reachable.call online rfl outside

theorem LockReachable.del {answer : Option Bool}
    (eq : treeNodeDel root s.master c path = (m, answer)) :
    LockReachable root names { s with master := m } := by
  have state : (MasterClient.call s.master c (root.join path) (.del (root.join path))).1 = m :=
    congrArg Prod.fst eq
  rw [← state]
  exact reachable.call online rfl outside

theorem LockReachable.gen {answer : Option Text}
    (eq : treeNodeGen root s.master c path value ephemeral = (m, answer)) :
    LockReachable root names { s with master := m } := by
  have state : (MasterClient.call s.master c (root.join path)
      (.gen (root.join path) value ephemeral)).1 = m := congrArg Prod.fst eq
  rw [← state]
  exact reachable.call online rfl outside

end

end

end Prpc.MasterClient
