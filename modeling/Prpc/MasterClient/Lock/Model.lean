import Prpc.MasterClient.Initialize

/-!
`acquire_lock` and `release_lock` of `MasterClient.cpp`, cut at every request to the Master and at
every use of the client's mutex. A thread is where its program counter says; clients share the
Master, and the threads of one client share its mutex and its table of acquired locks.
-/

namespace Prpc.MasterClient
open Lib Master

structure ThreadId where
  client : ClientId
  index : Nat
  deriving DecidableEq

/-- Where a thread is. `gen` is the name that was generated for it, which a release carries on
although it looks the path up again. -/
inductive LockPc
  | idle
  | addPath (name : Text)
  | genNode (name : Text)
  | watch (name gen : Text)
  | waiting (name gen : Text)
  | lockMutex (name gen : Text)
  | emplace (name gen : Text)
  | holding (name gen : Text)
  | find (name gen : Text)
  | delNode (name gen path : Text)
  | erase (name gen : Text)
  | failed
  deriving DecidableEq

structure LockState where
  master : State
  offline : Finset ClientId
  pc : ThreadId → LockPc
  mutex : ClientId → Option ThreadId
  acquiredLock : ClientId → Text → Option Text

def lockPath (name : Text) : Text := child pathLock name

def LockState.setPc (s : LockState) (t : ThreadId) (pc : LockPc) : LockState :=
  { s with pc := Function.update s.pc t pc }

def LockState.setMutex (s : LockState) (c : ClientId) (holder : Option ThreadId) : LockState :=
  { s with mutex := Function.update s.mutex c holder }

def LockState.setAcquired (s : LockState) (c : ClientId) (name : Text) (path : Option Text) : LockState :=
  { s with acquiredLock :=
      Function.update s.acquiredLock c (Function.update (s.acquiredLock c) name path) }

def LockState.ask {α : Type} (s : LockState) (t : ThreadId) (answer : State × Option α)
    (next : α → LockPc) : Option LockState :=
  if t.client ∈ s.offline then
    none
  else
    match answer with
    | (m, none) => some { s.setPc t .failed with master := m }
    | (m, some a) => some { s.setPc t (next a) with master := m }

/-- What the wait of `acquire_lock` goes by. The source reads `children[0]` without a check. -/
def afterChildren (name gen : Text) : Option (List Text) → LockPc
  | none => .failed
  | some [] => .failed
  | some (first :: _) => if gen = first then .lockMutex name gen else .waiting name gen

def lockAdvance (root : RootPath) (s : LockState) (t : ThreadId) : Option LockState :=
  let c := t.client
  match s.pc t with
  | .idle => none
  | .addPath name =>
    s.ask t (treeNodeAdd root s.master c (lockPath name) [] false) fun _ => .genNode name
  | .genNode name =>
    s.ask t (treeNodeGen root s.master c (lockPath name) [] true) fun gen =>
      if gen = [] then .failed else .watch name gen
  | .watch name gen =>
    s.ask t (treeWatch root s.master c (lockPath name)) fun _ => .waiting name gen
  | .waiting name gen =>
    s.ask t (treeNodeSub root s.master c (lockPath name)) (afterChildren name gen)
  | .lockMutex name gen =>
    if s.mutex c = none then some ((s.setMutex c (some t)).setPc t (.emplace name gen)) else none
  | .emplace name gen =>
    match s.acquiredLock c name with
    | some _ => some ((s.setMutex c none).setPc t .failed)
    | none =>
      some (((s.setAcquired c name (some (child (lockPath name) gen))).setMutex c none).setPc t
        (.holding name gen))
  | .holding _ _ => none
  | .find name gen =>
    if s.mutex c = none then
      match s.acquiredLock c name with
      | none => some (s.setPc t .failed)
      | some path => some ((s.setMutex c (some t)).setPc t (.delNode name gen path))
    else
      none
  | .delNode name gen path =>
    s.ask t (treeNodeDel root s.master c path) fun deleted =>
      if deleted then .erase name gen else .failed
  | .erase name _ => some (((s.setAcquired c name none).setMutex c none).setPc t .idle)
  | .failed => none

/-- One step of clients that use the locks called `names`. A thread calls `acquire_lock` when it is
idle and `release_lock` when it holds the lock. Requests outside the directory of locks are
`other`. A generation needs that the counter has not passed `2 ^ 31`. -/
inductive LockStep (root : RootPath) (names : Text → Prop) : LockState → LockState → Prop
  | acquireLock {s : LockState} (t : ThreadId) {name : Text} (named : names name)
      (idle : s.pc t = .idle) : LockStep root names s (s.setPc t (.addPath name))
  | releaseLock {s : LockState} (t : ThreadId) {name gen : Text}
      (holder : s.pc t = .holding name gen) : LockStep root names s (s.setPc t (.find name gen))
  | run {s s' : LockState} (t : ThreadId)
      (room : ∀ name, s.pc t = .genNode name → 0 ≤ s.master.gen (root.join (lockPath name)))
      (advance : lockAdvance root s t = some s') : LockStep root names s s'
  | disconnect {s : LockState} (c : ClientId) {temp : List Text} {m : State}
      {notified : List (ClientId × Text)} (collects : Collects s.master c temp)
      (clear : disconnectClearData s.master temp = some (m, notified)) :
      LockStep root names s { s with master := m, offline := insert c s.offline }
  | other {s : LockState} (c : ClientId) {req : Request} {path : Text} {out : Outcome}
      (online : c ∉ s.offline) (target : req.target = some path)
      (outside : ¬ Below (root.join pathLock) path)
      (handled : handleOp s.master c [] req = some out) :
      LockStep root names s { s with master := out.state }

structure LockInit (root : RootPath) (s : LockState) : Prop where
  tree : Tree s.master
  dir : EmptyDir s.master (root.join pathLock)
  online : s.offline = ∅
  idle : ∀ t, s.pc t = .idle
  mutex : ∀ c, s.mutex c = none
  acquired : ∀ c name, s.acquiredLock c name = none

def LockState.start (m : State) : LockState := ⟨m, ∅, fun _ => .idle, fun _ => none, fun _ _ => none⟩

abbrev LockReachable (root : RootPath) (names : Text → Prop) : LockState → Prop :=
  Reachable (LockInit root) (LockStep root names)

inductive LockCall
  | acquireLock (t : ThreadId) (name : Text)
  | releaseLock (t : ThreadId)
  | run (t : ThreadId)

def LockCall.allowed (names : Text → Prop) : LockCall → Prop
  | .acquireLock _ name => names name
  | _ => True

instance (names : Text → Prop) [DecidablePred names] : DecidablePred (LockCall.allowed names)
  | .acquireLock _ name => inferInstanceAs (Decidable (names name))
  | .releaseLock _ => isTrue trivial
  | .run _ => isTrue trivial

def lockApply (root : RootPath) (s : LockState) : LockCall → Option LockState
  | .acquireLock t name => if s.pc t = .idle then some (s.setPc t (.addPath name)) else none
  | .releaseLock t =>
    match s.pc t with
    | .holding name gen => some (s.setPc t (.find name gen))
    | _ => none
  | .run t =>
    match s.pc t with
    | .genNode name =>
      if 0 ≤ s.master.gen (root.join (lockPath name)) then lockAdvance root s t else none
    | _ => lockAdvance root s t

theorem lockApply_step {root : RootPath} {names : Text → Prop} {s s' : LockState} {call : LockCall}
    (allowed : call.allowed names) (applied : lockApply root s call = some s') :
    LockStep root names s s' := by
  cases call with
  | acquireLock t name =>
    simp only [lockApply, Option.ite_none_right_eq_some, Option.some.injEq] at applied
    obtain ⟨idle, rfl⟩ := applied
    exact .acquireLock t allowed idle
  | releaseLock t =>
    simp only [lockApply] at applied
    split at applied
    · rename_i name gen holder
      cases applied
      exact .releaseLock t holder
    · cases applied
  | run t =>
    simp only [lockApply] at applied
    split at applied
    · rename_i name at_
      simp only [Option.ite_none_right_eq_some] at applied
      refine .run t (fun name' at' => ?_) applied.2
      rw [at_] at at'
      cases at'
      exact applied.1
    · rename_i other
      exact .run t (fun name at_ => absurd at_ (other name)) applied

def lockRun (root : RootPath) (calls : List LockCall) : Option LockState := do
  let m ← clientInitialize root .empty 0
  calls.foldlM (lockApply root) (.start m)

theorem lockRun_reachable {root : RootPath} {names : Text → Prop} {calls : List LockCall}
    (allowed : ∀ call ∈ calls, call.allowed names) {s : LockState}
    (run : lockRun root calls = some s) : LockReachable root names s := by
  obtain ⟨m, eq, tree, dirs⟩ := clientInitialize_ok root 0
  have start : LockInit root (.start m) :=
    ⟨tree, dirs pathLock (by decide), rfl, fun _ => rfl, fun _ => rfl, fun _ _ => rfl⟩
  simp only [lockRun, eq, Option.bind_eq_bind, Option.bind_some] at run
  exact Reachable.foldlM (fun call mem s s' => lockApply_step (allowed call mem)) (.initial start) run

end Prpc.MasterClient
