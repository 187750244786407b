import Prpc.MasterClient.Lock.Frame
import Prpc.MasterClient.Service.Registry

namespace Prpc.MasterClient
open Lib Master

variable {root : RootPath} {s s' : ServiceState} {t : ThreadId} {call : ServiceCall}

structure ServiceCall.Plain (call : ServiceCall) : Prop where
  api : Segment call.api
  name : Segment call.name

instance : DecidablePred ServiceCall.Plain := fun call =>
  decidable_of_iff (Segment call.api ∧ Segment call.name) ⟨fun h => ⟨h.1, h.2⟩, fun h => ⟨h.1, h.2⟩⟩

theorem ServiceCall.Plain.key (plain : call.Plain) : Segment call.key := segment_rpcKey plain.api plain.name

theorem ServiceCall.Plain.only (plain : call.Plain) : ∀ call', some call = some call' → call'.Plain := by
  rintro _ ⟨⟩
  exact plain

def ServiceCall.segs (call : ServiceCall) : List Text := [pathRpc, call.api, call.name]

theorem join_segs (root : RootPath) (call : ServiceCall) :
    root.join (servicePath call.api call.name) = root.node call.segs :=
  join_servicePath root call.api call.name

theorem ServiceCall.Plain.segs (plain : call.Plain) : MasterClient.Plain call.segs :=
  plain_service plain.api plain.name

def ServicePc.subject : ServicePc → Option ServiceCall
  | .idle _ | .failed => none
  | .acquiring call | .addApi call | .getService call | .addGenerator call | .genId call
  | .addService call _ | .delService call | .releasing call _ | .addServerGenerator call _ _
  | .genServerId call _ _ | .addServer call _ _ _ | .delServer call _ => some call

def LockPc.acquires (key : Text) : LockPc → Prop
  | .addPath name | .genNode name | .watch name _ | .waiting name _ | .lockMutex name _
  | .emplace name _ | .holding name _ => name = key
  | .failed => True
  | _ => False

def LockPc.releases (key : Text) : LockPc → Prop
  | .holding name _ | .find name _ | .delNode name _ _ | .erase name _ => name = key
  | .idle | .failed => True
  | _ => False

variable {key : Text}

theorem LockPc.Next.acquires {pc next : LockPc} (step : pc.Next next)
    (acquires : pc.acquires key) : next.acquires key := by
  cases step <;> first | exact acquires | trivial

theorem LockPc.Next.releases {pc next : LockPc} (step : pc.Next next)
    (releases : pc.releases key) : next.releases key := by
  cases step <;> first | exact releases | trivial

def Sync : ServicePc → LockPc → Prop
  | .idle _, lpc | .addServerGenerator _ _ _, lpc | .genServerId _ _ _, lpc
  | .addServer _ _ _ _, lpc | .delServer _ _, lpc => lpc = .idle
  | .acquiring call, lpc => lpc.acquires call.key
  | .addApi call, lpc | .getService call, lpc | .addGenerator call, lpc | .genId call, lpc
  | .addService call _, lpc | .delService call, lpc => ∃ gen, lpc = .holding call.key gen
  | .releasing call _, lpc => lpc.releases call.key
  | .failed, _ => True

def holdsFor : ServicePc → LockPc → Option ServiceCall
  | .addApi call, _ | .getService call, _ | .addGenerator call, _ | .genId call, _
  | .addService call _, _ | .delService call, _ => some call
  | .releasing call _, lpc => if lpc.won = none then none else some call
  | _, _ => none

variable {pc : ServicePc} {lpc : LockPc}

theorem won_of_holdsFor (sync : Sync pc lpc)
    (holds : holdsFor pc lpc = some call) : ∃ gen, lpc.won = some (call.key, gen) := by
  cases pc with
  | addApi | getService | addGenerator | genId | addService | delService =>
    cases holds
    obtain ⟨gen, rfl⟩ := sync
    exact ⟨gen, rfl⟩
  | releasing call' ret =>
    simp only [holdsFor, Option.ite_none_left_eq_some, Option.some.injEq] at holds
    obtain ⟨won, rfl⟩ := holds
    cases lpc <;> simp_all [LockPc.won, Sync, LockPc.releases]
  | _ => cases holds

theorem subject_of_holdsFor (holds : holdsFor pc lpc = some call) : pc.subject = some call := by
  cases pc <;> simp_all [holdsFor, ServicePc.subject]

def Fact (root : RootPath) (m : State) (assigned : List Assignment) : ServicePc → LockPc → Prop
  | .getService call, _ => Persistent m (root.node [pathRpc, call.api])
  | .addGenerator call, _ | .genId call, _ =>
    Persistent m (root.node [pathRpc, call.api]) ∧ info m (root.node call.segs) = none
  | .addService call id, _ =>
    Persistent m (root.node [pathRpc, call.api]) ∧ info m (root.node call.segs) = none ∧
      ⟨call.api, call.name, id⟩ ∈ assigned
  | .releasing call (.rpcId id), lpc =>
    lpc.won ≠ none → info m (root.node call.segs) = some (none, toText id)
  | _, _ => True

variable {m m' : State}

theorem Fact.keep {assigned assigned' : List Assignment} (fact : Fact root m assigned pc lpc) (grows : assigned ⊆ assigned')
    (nodes : ∀ call, holdsFor pc lpc = some call →
      (Persistent m (root.node [pathRpc, call.api]) → Persistent m' (root.node [pathRpc, call.api])) ∧
      info m' (root.node call.segs) = info m (root.node call.segs)) :
    Fact root m' assigned' pc lpc := by
  cases pc with
  | getService call => exact (nodes call rfl).1 fact
  | addGenerator call | genId call =>
    obtain ⟨api, service⟩ := nodes call rfl
    exact ⟨api fact.1, service.trans fact.2⟩
  | addService call id =>
    obtain ⟨api, service⟩ := nodes call rfl
    exact ⟨api fact.1, service.trans fact.2.1, grows fact.2.2⟩
  | releasing call ret =>
    cases ret with
    | rpcId id =>
      intro won
      have holds : holdsFor (.releasing call (.rpcId id)) lpc = some call := if_neg won
      exact (nodes call holds).2.trans (fact won)
    | _ => trivial
  | _ => trivial

structure ServiceInv (root : RootPath) (s : ServiceState) : Prop where
  lock : LockReachable root Segment s.lock
  registry : Registry root s.master s.assigned
  plain : ∀ t call, (s.pc t).subject = some call → call.Plain
  sync : ∀ t, Sync (s.pc t) (s.lock.pc t)
  fact : ∀ t, t.client ∉ s.lock.offline → Fact root s.master s.assigned (s.pc t) (s.lock.pc t)
  released : ∀ r ∈ s.released, r.stored = some (toText r.rpcId)

theorem ServiceInv.knows (inv : ServiceInv root s) (at_ : s.pc t = pc)
    (subject : pc.subject = some call) : call.Plain ∧ Sync pc (s.lock.pc t) := by
  subst at_
  exact ⟨inv.plain t call subject, inv.sync t⟩

theorem ServiceInv.fact_at (inv : ServiceInv root s) (at_ : s.pc t = pc)
    (online : t.client ∉ s.lock.offline) :
    Fact root s.master s.assigned pc (s.lock.pc t) := by
  subst at_
  exact inv.fact t online

theorem ServiceInv.exclusive (inv : ServiceInv root s) {t' : ThreadId} {call' : ServiceCall}
    (online : t.client ∉ s.lock.offline) (online' : t'.client ∉ s.lock.offline)
    (holds : holdsFor (s.pc t) (s.lock.pc t) = some call)
    (holds' : holdsFor (s.pc t') (s.lock.pc t') = some call') (same : call.key = call'.key) :
    t = t' := by
  obtain ⟨gen, won⟩ := won_of_holdsFor (inv.sync t) holds
  obtain ⟨gen', won'⟩ := won_of_holdsFor (inv.sync t') holds'
  obtain ⟨G, Q, lockInv⟩ := inv.lock.inv
  rw [← same] at won'
  exact lockInv.won_unique won won' online online'

theorem ServiceState.ask_cases {α : Type} {answer : State × Option α}
    {next : ServiceState → α → ServiceState} (asked : s.ask t answer next = some s') :
    t.client ∉ s.lock.offline ∧ (answer.2 = none ∧ s' = (s.setMaster answer.1).setPc t .failed ∨
        ∃ a, answer.2 = some a ∧ s' = next (s.setMaster answer.1) a) := by
  unfold ServiceState.ask at asked
  split at asked
  · cases asked
  · rename_i online
    refine ⟨online, ?_⟩
    split at asked <;> cases asked
    · exact .inl ⟨rfl, rfl⟩
    · exact .inr ⟨_, rfl, rfl⟩

def Spares (root : RootPath) (m m' : State) (call : ServiceCall) : Prop :=
  (Persistent m (root.node [pathRpc, call.api]) → Persistent m' (root.node [pathRpc, call.api])) ∧
    info m' (root.node call.segs) = info m (root.node call.segs)

theorem Spares.refl (root : RootPath) (m : State) (call : ServiceCall) : Spares root m m call := ⟨id, rfl⟩

theorem KeepsNodes.spares (keeps : KeepsNodes root m m') (plain : call.Plain) : Spares root m m' call := by
  refine ⟨fun persistent => ?_, keeps _ plain.segs (.inl rfl)⟩
  rwa [Persistent, keeps _ (plain_api plain.api) (.inl rfl)]

variable {l : List Text}

theorem Puts.spares {node : Option (Option ClientId × Text)}
    (puts : Puts m m' (root.node l) node) (hl : Plain l) (plain : call.Plain)
    (api : l ≠ [pathRpc, call.api]) (service : l ≠ call.segs) : Spares root m m' call := by
  refine ⟨puts.persistent ?_, puts.of_ne ?_⟩
  · rw [ne_eq, node_inj (plain_api plain.api) hl]
    exact api.symm
  · rw [ne_eq, node_inj plain.segs hl]
    exact service.symm

theorem Added.spares {node : Option ClientId × Text}
    (added : Added m m' (root.node l) node) (hl : Plain l) (plain : call.Plain)
    (service : l ≠ call.segs) : Spares root m m' call := by
  refine ⟨fun persistent => added.persistent ?_ persistent, added.of_ne ?_⟩
  · rintro eq
    obtain ⟨v, hv⟩ := persistent
    rw [eq, added.fresh] at hv
    cases hv
  · rw [ne_eq, node_inj plain.segs hl]
    exact service.symm

theorem Deleted.gen_generator
    (deleted : Deleted m m' (root.node l)) (hl : Plain l) (apart : l.head? ≠ some pathGenerateId)
    (hk : Segment key) :
    m'.gen (root.node [pathGenerateId, key]) = m.gen (root.node [pathGenerateId, key]) := by
  rw [deleted.gen, if_neg]
  rw [node_inj (plain_generator hk) hl]
  rintro rfl
  exact apart rfl

variable {assigned : List Assignment}

theorem ServiceInv.request (inv : ServiceInv root s) {m : State}
    {next : ServicePc} (lock : LockReachable root Segment { s.lock with master := m })
    (registry : Registry root m assigned) (grows : s.assigned ⊆ assigned)
    (others : ∀ t' call, t' ≠ t → t'.client ∉ s.lock.offline → call.Plain →
      holdsFor (s.pc t') (s.lock.pc t') = some call → Spares root s.master m call)
    (plain : ∀ call, next.subject = some call → call.Plain) (sync : Sync next (s.lock.pc t))
    (fact : Fact root m assigned next (s.lock.pc t)) :
    ServiceInv root ({ s.setMaster m with assigned }.setPc t next) where
  lock := lock
  registry := registry
  plain := (Function.forall_update_iff s.pc fun _ pc =>
    ∀ call, pc.subject = some call → call.Plain).2 ⟨plain, fun t' _ => inv.plain t'⟩
  sync := (Function.forall_update_iff s.pc fun t' pc => Sync pc (s.lock.pc t')).2
    ⟨sync, fun t' _ => inv.sync t'⟩
  fact := by
    refine (Function.forall_update_iff s.pc fun t' pc => t'.client ∉ s.lock.offline →
      Fact root m assigned pc (s.lock.pc t')).2 ⟨fun _ => fact, fun t' ne online => ?_⟩
    exact (inv.fact t' online).keep grows fun call holds =>
      others t' call ne online (inv.plain t' call (subject_of_holdsFor holds)) holds
  released := inv.released

theorem pathRpc_ne_pathLock : pathRpc ≠ pathLock := by decide
theorem pathGenerateId_ne_pathLock : pathGenerateId ≠ pathLock := by decide

theorem not_below_lock {k : Text} (plain : Plain (l ++ [k]))
    (dir : l.head? = some pathRpc ∨ l.head? = some pathGenerateId) :
    ¬ Below (root.join pathLock) (root.node (l ++ [k])) := by
  intro below
  have lockPlain : Plain [pathLock] := by simp [Plain, segment_pathLock]
  have below : Below (root.node [pathLock]) (root.node (l ++ [k])) := below
  obtain ⟨rest, eq⟩ := prefix_of_below lockPlain plain below
  rcases dir with dir | dir <;> obtain ⟨l, rfl⟩ := List.head?_eq_some_iff.1 dir
  · exact pathRpc_ne_pathLock (List.cons.inj eq).1.symm
  · exact pathGenerateId_ne_pathLock (List.cons.inj eq).1.symm

section
variable {path k value : Text} {l : List Text} {ephemeral : Bool}

section
variable (inv : ServiceInv root s) (node : root.join path = root.node (l ++ [k])) (plain : Plain (l ++ [k])) (dir : l.head? = some pathRpc ∨ l.head? = some pathGenerateId)
include inv node plain dir

theorem ServiceInv.add {next : ServiceState → Bool → ServiceState}
    (asked : s.ask t (treeNodeAdd root s.master t.client path value ephemeral) next = some s') :
    ∃ m added, t.client ∉ s.lock.offline ∧ s' = next (s.setMaster m) added ∧
      LockReachable root Segment { s.lock with master := m } ∧
      (added = false ∧ m = s.master ∧
          (Persistent s.master (root.node l) → info s.master (root.node (l ++ [k])) ≠ none) ∨
        added = true ∧ Added s.master m (root.node (l ++ [k])) (ownerOf t.client ephemeral, value)) := by
  obtain ⟨m, added, eq, result⟩ := treeNodeAdd_spec t.client value ephemeral
    inv.registry.tree (node ▸ valid_node plain)
  rw [eq] at asked
  obtain ⟨online, ⟨⟨⟩, -⟩ | ⟨_, ⟨⟩, rfl⟩⟩ := ServiceState.ask_cases asked
  have segment := plain k (by simp)
  rw [node, ← child_node, parentOf_child segment.noSlash, child_node] at result
  refine ⟨m, added, online, rfl, inv.lock.add online ?_ eq, result⟩
  rw [node]
  exact not_below_lock plain dir

theorem ServiceInv.del {next : ServiceState → Bool → ServiceState}
    (asked : s.ask t (treeNodeDel root s.master t.client path) next = some s') :
    ∃ m deleted, t.client ∉ s.lock.offline ∧ s' = next (s.setMaster m) deleted ∧
      LockReachable root Segment { s.lock with master := m } ∧
      (deleted = false ∧ m = s.master ∧ (info s.master (root.node (l ++ [k])) = none ∨
          ¬ ∀ k', '/' ∉ k' → info s.master (child (root.node (l ++ [k])) k') = none) ∨
        deleted = true ∧ Deleted s.master m (root.node (l ++ [k]))) := by
  obtain ⟨m, deleted, eq, result⟩ := treeNodeDel_spec t.client inv.registry.tree
    (node ▸ valid_node plain)
  rw [eq] at asked
  obtain ⟨online, ⟨⟨⟩, -⟩ | ⟨_, ⟨⟩, rfl⟩⟩ := ServiceState.ask_cases asked
  rw [node] at result
  refine ⟨m, deleted, online, rfl, inv.lock.del online ?_ eq, result⟩
  rw [node]
  exact not_below_lock plain dir

end

end

theorem Registry.added
    {node : Option ClientId × Text} (reg : Registry root m assigned) (hl : Plain l)
    (deep : 2 ≤ l.length) (other : l.length ≠ 3) (api : ∀ api, l = [pathRpc, api] → node.1 = none)
    (result : m' = m ∨ Added m m' (root.node l) node) :
    Registry root m' assigned ∧ ∀ call : ServiceCall, call.Plain → Spares root m m' call := by
  rcases result with rfl | added
  · exact ⟨reg, fun call _ => .refl _ _ _⟩
  · refine ⟨reg.put hl deep added.toPuts (fun _ _ => added.gen _) ?_ ?_,
      fun call plain => added.spares hl plain ?_⟩
    · rintro a eq o v ⟨⟩
      exact api a eq
    · rintro a n rfl
      exact absurd rfl other
    · rintro rfl
      exact absurd rfl other

theorem ServiceInv.addApi (inv : ServiceInv root s) (at_ : s.pc t = .addApi call)
    (asked : s.ask t (treeNodeAdd root s.master t.client (apiPath call.api) [] false)
      (fun s _ => s.setPc t (.getService call)) = some s') : ServiceInv root s' := by
  obtain ⟨plain, sync⟩ := inv.knows at_ rfl
  have hl := plain_api plain.api
  obtain ⟨m, added, online, rfl, lock, result⟩ := inv.add (l := [pathRpc])
    (join_apiPath root call.api) hl (.inl rfl) asked
  obtain ⟨registry, spares⟩ := inv.registry.added hl (by simp) (by simp) (fun _ _ => rfl)
    (result.imp (·.2.1) (·.2))
  refine inv.request lock registry (fun _ mem => mem)
    (fun _ call' _ _ plain' _ => spares call' plain') plain.only sync ?_
  rcases result with ⟨-, rfl, present⟩ | ⟨-, added⟩
  · obtain ⟨⟨o, v⟩, hv⟩ := Option.ne_none_iff_exists'.1 (present inv.registry.rpcDir)
    obtain rfl := inv.registry.api call.api plain.api o v hv
    exact ⟨v, hv⟩
  · exact ⟨[], (added.nodes _).trans (if_pos rfl)⟩

theorem Registry.id_range {m : State} (reg : Registry root m assigned)
    {a : Assignment} (segment : Segment a.api) (mem : a ∈ assigned) :
    -2 ^ 31 ≤ a.rpcId ∧ a.rpcId < 2 ^ 31 := by
  obtain ⟨g, counts, ids⟩ := reg.counts a.api segment
  obtain ⟨i, lt, eq⟩ := ids a mem rfl
  have := counts.le
  omega

section
variable (inv : ServiceInv root s)
include inv

theorem ServiceInv.getService (at_ : s.pc t = .getService call)
    (asked : s.ask t (treeNodeGet root s.master t.client (servicePath call.api call.name))
      (fun s info => s.setPc t (afterGet call info)) = some s') : ServiceInv root s' := by
  obtain ⟨plain, sync⟩ := inv.knows at_ rfl
  have valid : masterCheckValidPath (root.join (servicePath call.api call.name)) = true := by
    rw [join_servicePath]
    exact valid_node (l := [pathRpc, call.api]) plain.segs
  rw [treeNodeGet_info inv.registry.tree valid, join_servicePath] at asked
  obtain ⟨online, ⟨⟨⟩, -⟩ | ⟨_, ⟨⟩, rfl⟩⟩ := ServiceState.ask_cases asked
  have fact := inv.fact_at at_ online
  have same : ∀ next : ServicePc, (∀ call, next.subject = some call → call.Plain) →
      Sync next (s.lock.pc t) → Fact root s.master s.assigned next (s.lock.pc t) →
      ServiceInv root (s.setPc t next) := fun next =>
    inv.request inv.lock inv.registry (fun _ mem => mem) fun _ _ _ _ _ _ => .refl _ _ _
  cases node : info s.master (root.node [pathRpc, call.api, call.name]) with
  | none =>
    exact same (.addGenerator call) plain.only sync ⟨fact, node⟩
  | some node' =>
    obtain ⟨o, v⟩ := node'
    obtain ⟨rfl, id, rfl, mem⟩ := inv.registry.service _ _ plain.api plain.name o v node
    have range := inv.registry.id_range plain.api mem
    have after : afterGet call (some (toText id)) = .releasing call (.rpcId id) := by
      rw [afterGet, picoLexicalCastInt_toText range.1 range.2]
    simp only [Option.map_some, after]
    refine same (.releasing call (.rpcId id)) plain.only ?_ fun _ => node
    obtain ⟨gen, held⟩ := sync
    rw [held]
    rfl

theorem ServiceInv.generator {next : ServiceState → Bool → ServiceState} (hk : Segment key)
    (asked : s.ask t (treeNodeAdd root s.master t.client (generatorPath key) [] false) next = some s') :
    ∃ m added, t.client ∉ s.lock.offline ∧ s' = next (s.setMaster m) added ∧
      LockReachable root Segment { s.lock with master := m } ∧ Registry root m s.assigned ∧
      ∀ call : ServiceCall, call.Plain → Spares root s.master m call := by
  have hl := plain_generator hk
  obtain ⟨m, added, online, rfl, lock, result⟩ := inv.add (l := [pathGenerateId])
    (join_generatorPath root key) hl (.inr rfl) asked
  exact ⟨m, added, online, rfl, lock, inv.registry.added hl (by simp) (by simp) (fun _ _ => rfl)
    (result.imp (·.2.1) (·.2))⟩

theorem ServiceInv.generate {next : ServiceState → Text → ServiceState} (hk : Segment key)
    (room : 0 ≤ s.master.gen (root.join (generatorPath key)))
    (empty : ∀ s, next s [] = s.setPc t .failed)
    (asked : s.ask t (treeNodeGen root s.master t.client (generatorPath key) [] true) next = some s') :
    ∃ m, t.client ∉ s.lock.offline ∧ LockReachable root Segment { s.lock with master := m } ∧
      Registry root m s.assigned ∧ KeepsNodes root s.master m ∧
      (s' = (s.setMaster m).setPc t .failed ∨
        s' = next (s.setMaster m) (genKey (s.master.gen (root.node [pathGenerateId, key]))) ∧
          Generated s.master m (root.node [pathGenerateId, key]) (some t.client, [])) := by
  have hl := plain_generator hk
  have node := join_generatorPath root key
  obtain ⟨m, gen, eq, result⟩ := treeNodeGen_spec t.client [] true
    inv.registry.tree (node ▸ valid_node (l := [pathGenerateId]) hl)
  rw [eq] at asked
  rw [node] at result room
  obtain ⟨registry, keeps⟩ := inv.registry.generate hk room result
  obtain ⟨online, outcome⟩ := ServiceState.ask_cases asked
  refine ⟨m, online, inv.lock.gen online ?_ eq, registry, keeps, ?_⟩
  · rw [node]
    exact not_below_lock (l := [pathGenerateId]) hl (.inr rfl)
  · rcases outcome with ⟨-, rfl⟩ | ⟨a, rfl, rfl⟩
    · exact .inl rfl
    · rcases result with ⟨⟨⟨⟩⟩ | ⟨⟨⟩⟩, -⟩ | ⟨⟨⟩, generated⟩
      · exact .inl (empty _)
      · exact .inr ⟨rfl, generated⟩

theorem ServiceInv.addGenerator (at_ : s.pc t = .addGenerator call)
    (asked : s.ask t (treeNodeAdd root s.master t.client (generatorPath call.api) [] false)
      (fun s _ => s.setPc t (.genId call)) = some s') : ServiceInv root s' := by
  obtain ⟨plain, sync⟩ := inv.knows at_ rfl
  obtain ⟨m, -, online, rfl, lock, registry, spares⟩ := inv.generator plain.api asked
  have fact := inv.fact_at at_ online
  refine inv.request lock registry (fun _ mem => mem)
    (fun _ call' _ _ plain' _ => spares call' plain') plain.only sync ?_
  obtain ⟨api, service⟩ := spares call plain
  exact ⟨api fact.1, service.trans fact.2⟩

theorem ServiceInv.genId (at_ : s.pc t = .genId call)
    (room : 0 ≤ s.master.gen (root.join (generatorPath call.api)))
    (asked : s.ask t (treeNodeGen root s.master t.client (generatorPath call.api) [] true)
      (fun s gen => match idOf gen with
        | none => s.setPc t .failed
        | some id => (s.assign call id).setPc t (.addService call id)) = some s') :
    ServiceInv root s' := by
  obtain ⟨plain, sync⟩ := inv.knows at_ rfl
  obtain ⟨m, online, lock, registry, keeps, rfl | ⟨rfl, generated⟩⟩ :=
    inv.generate plain.api room (fun _ => rfl) asked
  · exact inv.request lock registry (fun _ mem => mem)
      (fun _ _ _ _ plain' _ => keeps.spares plain') (by rintro _ ⟨⟩) trivial trivial
  · rw [join_generatorPath] at room
    obtain ⟨g, small, gen, ids⟩ := inv.registry.counted plain.api room
    have fact := inv.fact_at at_ online
    simp only [gen, idOf_genKey small]
    have new : ∀ a ∈ s.assigned, a.api = call.api → (g : Int) ≠ a.rpcId := by
      intro a mem api
      obtain ⟨i, lt, eq⟩ := ids a mem api
      omega
    refine inv.request lock (inv.registry.bump plain.api room generated.tree keeps generated.gen
        (List.subset_cons_self _ _) ?_ ?_) (List.subset_cons_self _ _)
        (fun _ _ _ _ plain' _ => keeps.spares plain') plain.only sync ?_
    · intro a mem
      rcases List.mem_cons.1 mem with rfl | mem
      · exact .inr ⟨rfl, gen.symm⟩
      · exact .inl mem
    · exact List.pairwise_cons.2 ⟨fun a mem api => new a mem api.symm, inv.registry.distinct⟩
    · obtain ⟨api, service⟩ := keeps.spares plain
      exact ⟨api fact.1, service.trans fact.2, List.mem_cons_self ..⟩

theorem ServiceInv.segs_ne (online : t.client ∉ s.lock.offline)
    (holds : holdsFor (s.pc t) (s.lock.pc t) = some call) {t' : ThreadId} {call' : ServiceCall}
    (ne : t' ≠ t) (online' : t'.client ∉ s.lock.offline)
    (holds' : holdsFor (s.pc t') (s.lock.pc t') = some call') : call.segs ≠ call'.segs := by
  intro eq
  simp only [ServiceCall.segs, List.cons.injEq, true_and, and_true] at eq
  refine ne (inv.exclusive online online' holds holds' ?_).symm
  rw [ServiceCall.key, ServiceCall.key, eq.1, eq.2]

variable {id : Int}

theorem ServiceInv.addService
    (at_ : s.pc t = .addService call id)
    (asked : s.ask t (treeNodeAdd root s.master t.client (servicePath call.api call.name) (toText id) false)
      (fun s _ => s.setPc t (.releasing call (.rpcId id))) = some s') : ServiceInv root s' := by
  obtain ⟨plain, sync⟩ := inv.knows at_ rfl
  obtain ⟨m, added, online, rfl, lock, result⟩ := inv.add (l := [pathRpc, call.api])
    (join_servicePath root call.api call.name) plain.segs (.inl rfl) asked
  have fact := inv.fact_at at_ online
  obtain ⟨api, fresh, mem⟩ := fact
  have added : Added s.master m (root.node call.segs) (none, toText id) := by
    rcases result with ⟨-, -, present⟩ | ⟨-, added⟩
    · exact absurd fresh (present api)
    · exact added
  refine inv.request lock ?_ (fun _ mem => mem) ?_ plain.only ?_ ?_
  · refine inv.registry.put plain.segs (by simp [ServiceCall.segs]) added.toPuts
      (fun _ _ => added.gen _) ?_ ?_
    · rintro api ⟨⟩
    · rintro api name ⟨⟩ o v ⟨⟩
      exact ⟨rfl, id, rfl, mem⟩
  · intro t' call' ne online' plain' holds'
    exact added.spares plain.segs plain' (inv.segs_ne online (by rw [at_]; rfl) ne online' holds')
  · obtain ⟨gen, held⟩ := sync
    rw [held]
    rfl
  · exact fun _ => (added.nodes _).trans (if_pos rfl)

theorem ServiceInv.delService (at_ : s.pc t = .delService call)
    (asked : s.ask t (treeNodeDel root s.master t.client (servicePath call.api call.name))
      (fun s ret => s.setPc t (.releasing call (.flag ret))) = some s') : ServiceInv root s' := by
  obtain ⟨plain, sync⟩ := inv.knows at_ rfl
  obtain ⟨m, deleted, online, rfl, lock, result⟩ := inv.del (l := [pathRpc, call.api])
    (join_servicePath root call.api call.name) plain.segs (.inl rfl) asked
  refine inv.request lock ?_ (fun _ mem => mem) ?_ plain.only ?_ trivial
  · rcases result with ⟨-, rfl, -⟩ | ⟨-, deleted⟩
    · exact inv.registry
    · refine inv.registry.put plain.segs (by simp [ServiceCall.segs]) deleted.toPuts
        (fun key hk => ?_) ?_ ?_
      · exact deleted.gen_generator plain.segs (by simpa using pathGenerateId_ne_pathRpc.symm) hk
      · rintro api - o v ⟨⟩
      · rintro api name - o v ⟨⟩
  · intro t' call' ne online' plain' holds'
    rcases result with ⟨-, rfl, -⟩ | ⟨-, deleted⟩
    · exact .refl _ _ _
    · exact deleted.spares plain.segs plain' (by simp)
        (inv.segs_ne online (by rw [at_]; rfl) ne online' holds')
  · obtain ⟨gen, held⟩ := sync
    rw [held]
    rfl

theorem ServiceInv.live (live : Text → Option Registration) : ServiceInv root { s with live } :=
  ⟨inv.lock, inv.registry, inv.plain, inv.sync, inv.fact, inv.released⟩

variable {rank : Int32}

theorem ServiceInv.addServerGenerator
    (at_ : s.pc t = .addServerGenerator call rank id)
    (asked : s.ask t (treeNodeAdd root s.master t.client (generatorPath call.key) [] false)
      (fun s _ => s.setPc t (.genServerId call rank id)) = some s') : ServiceInv root s' := by
  obtain ⟨plain, sync⟩ := inv.knows at_ rfl
  obtain ⟨m, -, online, rfl, lock, registry, spares⟩ := inv.generator plain.key asked
  exact inv.request lock registry (fun _ mem => mem)
    (fun _ call' _ _ plain' _ => spares call' plain') plain.only sync trivial

theorem ServiceInv.genServerId
    (at_ : s.pc t = .genServerId call rank id)
    (room : 0 ≤ s.master.gen (root.join (generatorPath call.key)))
    (asked : s.ask t (treeNodeGen root s.master t.client (generatorPath call.key) [] true)
      (fun s gen => match idOf gen with
        | none => s.setPc t .failed
        | some serverId => s.setPc t (.addServer call rank id serverId)) = some s') :
    ServiceInv root s' := by
  obtain ⟨plain, sync⟩ := inv.knows at_ rfl
  obtain ⟨m, online, lock, registry, keeps, outcome⟩ := inv.generate plain.key room (fun _ => rfl) asked
  have on : ∀ next : ServicePc, (∀ call, next.subject = some call → call.Plain) →
      Sync next (s.lock.pc t) → Fact root m s.assigned next (s.lock.pc t) →
      ServiceInv root ((s.setMaster m).setPc t next) := fun next =>
    inv.request lock registry (fun _ mem => mem) fun _ _ _ _ plain' _ => keeps.spares plain'
  rcases outcome with rfl | ⟨rfl, -⟩
  · exact on .failed (by rintro _ ⟨⟩) trivial trivial
  · split
    · exact on .failed (by rintro _ ⟨⟩) trivial trivial
    · exact on (.addServer call rank id _) plain.only sync trivial

theorem ServiceInv.addServer {id serverId : Int}
    (at_ : s.pc t = .addServer call rank id serverId) {path : Text} {reg : Registration}
    (hpath : path = serverPath call.api call.name serverId)
    (asked : s.ask t (treeNodeAdd root s.master t.client path (toText rank.toInt) true)
      (fun s added => (if added then s.enlist (root.join path) reg else s).setPc t
        (.idle (.server added id serverId))) = some s') : ServiceInv root s' := by
  subst hpath
  obtain ⟨plain, sync⟩ := inv.knows at_ rfl
  have hl := plain_server plain.api plain.name serverId
  obtain ⟨m, added, online, rfl, lock, result⟩ := inv.add (l := [pathRpc, call.api, call.name])
    (join_serverPath root call.api call.name serverId) hl (.inl rfl) asked
  obtain ⟨registry, spares⟩ := inv.registry.added hl (by simp) (by simp) nofun
    (result.imp (·.2.1) (·.2))
  have inv' : ServiceInv root ((s.setMaster m).setPc t (.idle (.server added id serverId))) :=
    inv.request lock registry (fun _ mem => mem) (fun _ call' _ _ plain' _ => spares call' plain')
      (by rintro _ ⟨⟩) sync trivial
  cases added with
  | false => exact inv'
  | true => exact inv'.live _

theorem ServiceInv.delServer {serverId : Int32}
    (at_ : s.pc t = .delServer call serverId)
    (asked : s.ask t (treeNodeDel root s.master t.client (serverPath call.api call.name serverId.toInt))
      (fun s ret => s.prune.setPc t (.idle (.flag ret))) = some s') : ServiceInv root s' := by
  obtain ⟨plain, sync⟩ := inv.knows at_ rfl
  have hl := plain_server plain.api plain.name serverId.toInt
  obtain ⟨m, deleted, online, rfl, lock, result⟩ := inv.del (l := [pathRpc, call.api, call.name])
    (join_serverPath root call.api call.name serverId.toInt) hl (.inl rfl) asked
  have inv' : ServiceInv root ((s.setMaster m).setPc t (.idle (.flag deleted))) := by
    refine inv.request lock ?_ (fun _ mem => mem) ?_ (by rintro _ ⟨⟩) sync trivial
    · rcases result with ⟨-, rfl, -⟩ | ⟨-, deleted⟩
      · exact inv.registry
      · refine inv.registry.put hl (by simp) deleted.toPuts (fun key hk => ?_) ?_ ?_
        · exact deleted.gen_generator hl (by simpa using pathGenerateId_ne_pathRpc.symm) hk
        · rintro api - o v ⟨⟩
        · rintro api name - o v ⟨⟩
    · intro t' call' ne online' plain' holds
      rcases result with ⟨-, rfl, -⟩ | ⟨-, deleted⟩
      · exact .refl _ _ _
      · exact deleted.spares hl plain' (by simp) (by simp [ServiceCall.segs])
  exact inv'.live _

end

end Prpc.MasterClient
