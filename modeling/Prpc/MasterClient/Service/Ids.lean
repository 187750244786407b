import Prpc.MasterClient.Service.Workers

namespace Prpc.MasterClient
open Lib Master
open Function (update update_self update_of_ne update_eq_self)

variable {root : RootPath} {s s' : ServiceState} {t : ThreadId} {call : ServiceCall}

theorem lock_apart_rpc (p : Text) (below : Below (root.join pathLock) p) :
    ¬ Below (root.node [pathRpc]) p := fun below' =>
  pathRpc_ne_pathLock (below_child_unique segment_pathRpc.noSlash segment_pathLock.noSlash below' below)

theorem lock_apart_generateId (p : Text) (below : Below (root.join pathLock) p) :
    ¬ Below (root.node [pathGenerateId]) p := fun below' =>
  pathGenerateId_ne_pathLock
    (below_child_unique segment_pathGenerateId.noSlash segment_pathLock.noSlash below' below)

section
variable (inv : ServiceInv root s)
include inv

theorem ServiceInv.lockStep {l : LockState}
    (room : ∀ name, s.lock.pc t = .genNode name → 0 ≤ s.master.gen (root.join (lockPath name)))
    (advance : lockAdvance root s.lock t = some l)
    (sync : ∀ next, (s.lock.pc t).Next next → Sync (s.pc t) next)
    (fact : ∀ next, (s.lock.pc t).Next next → Fact root s.master s.assigned (s.pc t) (s.lock.pc t) →
      Fact root s.master s.assigned (s.pc t) next) :
    ServiceInv root (s.setLock l) ∧ KeepsNodes root s.master l.master := by
  have lock : LockReachable root Segment l := inv.lock.next (.run t room advance)
  obtain ⟨G, Q, lockInv⟩ := inv.lock.inv
  obtain ⟨G', Q', lockInv'⟩ := lock.inv
  obtain ⟨next, pcs, step, offline⟩ := lockAdvance_next advance
  obtain ⟨registry, keeps⟩ := inv.registry.elsewhere lockInv'.queues.tree
    (lockInv.sameBelow inv.registry.rpcDir.mem lock_apart_rpc advance)
    (lockInv.sameBelow inv.registry.generateDir.mem lock_apart_generateId advance)
  refine ⟨⟨lock, registry, inv.plain, fun t' => ?_, fun t' online => ?_, inv.released⟩, keeps⟩
  · show Sync (s.pc t') (l.pc t')
    rw [pcs]
    by_cases eq : t' = t
    · rw [eq, update_self]
      exact sync next step
    · rw [update_of_ne eq]
      exact inv.sync t'
  · show Fact root l.master s.assigned (s.pc t') (l.pc t')
    change t'.client ∉ l.offline at online
    rw [offline] at online
    have before : Fact root s.master s.assigned (s.pc t') (l.pc t') := by
      rw [pcs]
      by_cases eq : t' = t
      · rw [eq, update_self]
        exact fact next step (inv.fact t (eq ▸ online))
      · rw [update_of_ne eq]
        exact inv.fact t' online
    exact before.keep (fun _ mem => mem) fun call holds =>
      keeps.spares (inv.plain t' call (subject_of_holdsFor holds))

theorem ServiceInv.goOn {next : ServicePc} {lpc : LockPc}
    (lock : LockReachable root Segment (s.lock.setPc t lpc))
    (plain : ∀ call, next.subject = some call → call.Plain) (sync : Sync next lpc)
    (fact : t.client ∉ s.lock.offline → Fact root s.master s.assigned next lpc) :
    ServiceInv root ((s.setLock (s.lock.setPc t lpc)).setPc t next) := by
  refine ⟨lock, inv.registry, fun t' call h => ?_, fun t' => ?_, fun t' online => ?_, inv.released⟩
  · change (update s.pc t next t').subject = some call at h
    by_cases eq : t' = t
    · rw [eq, update_self] at h
      exact plain call h
    · rw [update_of_ne eq] at h
      exact inv.plain t' call h
  · show Sync (update s.pc t next t') (update s.lock.pc t lpc t')
    by_cases eq : t' = t
    · rw [eq, update_self, update_self]
      exact sync
    · rw [update_of_ne eq, update_of_ne eq]
      exact inv.sync t'
  · show Fact root s.master s.assigned (update s.pc t next t')
      (update s.lock.pc t lpc t')
    by_cases eq : t' = t
    · rw [eq, update_self, update_self]
      exact fact (eq ▸ online)
    · rw [update_of_ne eq, update_of_ne eq]
      exact inv.fact t' online

theorem ServiceInv.goOn_same {next : ServicePc}
    (plain : ∀ call, next.subject = some call → call.Plain) (sync : Sync next (s.lock.pc t))
    (fact : t.client ∉ s.lock.offline → Fact root s.master s.assigned next (s.lock.pc t)) :
    ServiceInv root (s.setPc t next) := by
  have same : s.lock.setPc t (s.lock.pc t) = s.lock := by
    rw [LockState.setPc, update_eq_self]
  have lock : LockReachable root Segment (s.lock.setPc t (s.lock.pc t)) := same.symm ▸ inv.lock
  have inv' := inv.goOn lock plain sync fact
  rwa [same] at inv'

theorem ServiceInv.begin {ret : Return} (plain : call.Plain)
    (idle : s.pc t = .idle ret) : ServiceInv root (s.begin t call) := by
  have sync : s.lock.pc t = .idle := by
    have sync := inv.sync t
    rwa [idle] at sync
  have isPlain : ∀ call', some call = some call' → call'.Plain := by
    rintro _ ⟨⟩
    exact plain
  unfold ServiceState.begin
  split
  · exact inv.goOn_same isPlain sync fun _ => trivial
  · exact inv.goOn (inv.lock.next (.acquireLock t plain.key sync)) isPlain rfl fun _ => trivial

theorem ServiceInv.acquiring (at_ : s.pc t = .acquiring call)
    (room : Room root s t) (advance : serviceAdvance root s t = some s') :
    ServiceInv root s' ∧ KeepsNodes root s.master s'.master := by
  have plain := inv.plain t call (by rw [at_]; rfl)
  have sync := inv.sync t
  rw [at_] at sync
  simp only [serviceAdvance, at_] at advance
  split at advance
  · rename_i name gen holding
    cases advance
    rw [holding] at sync
    refine ⟨?_, fun _ _ _ => rfl⟩
    unfold afterAcquire
    split
    · refine inv.goOn_same (fun call' h => ?_) ⟨gen, by rw [holding, ← sync]⟩ fun _ => trivial
      cases h
      exact plain
    · refine inv.goOn_same (fun call' h => ?_) ⟨gen, by rw [holding, ← sync]⟩ fun _ => trivial
      cases h
      exact plain
  · obtain ⟨l, moved, rfl⟩ := Option.map_eq_some_iff.1 advance
    refine inv.lockStep (fun name genNode => room _ ?_) moved (fun next step => ?_) fun next _ _ => ?_
    · rw [ServiceState.generates, at_, genNode]
    · rw [at_]
      exact step.acquires sync
    · rw [at_]
      trivial

end

theorem LockPc.Next.won {pc next : LockPc} {key : Text} (step : pc.Next next)
    (releases : pc.releases key) (won : next.won ≠ none) : pc.won ≠ none := by
  cases step <;> simp_all [LockPc.won, LockPc.releases]

theorem LockPc.Next.of_erase {pc : LockPc} {name gen : Text} (step : pc.Next (.erase name gen)) :
    ∃ path, pc = .delNode name gen path := by
  cases step
  exact ⟨_, rfl⟩

theorem LockPc.Next.of_idle {pc : LockPc} (step : pc.Next .idle) : ∃ name gen, pc = .erase name gen := by
  cases step
  exact ⟨_, _, rfl⟩

theorem online_of_delNode {l l' : LockState} {name gen path : Text}
    (at_ : l.pc t = .delNode name gen path) (advance : lockAdvance root l t = some l') :
    t.client ∉ l.offline := by
  intro off
  simp [lockAdvance, at_, LockState.ask, off] at advance

theorem lookup_value (m : State) (p : Text) : (m.path.lookup p).map (·.value) = (info m p).map Prod.snd := by
  rw [info, Option.map_map]
  rfl

theorem releasing_fact {ret : Return}
    (at_ : s.pc t = .releasing call ret) (next : LockPc)
    (won : next.won ≠ none → (s.lock.pc t).won ≠ none)
    (fact : Fact root s.master s.assigned (s.pc t) (s.lock.pc t)) :
    Fact root s.master s.assigned (s.pc t) next := by
  rw [at_] at fact ⊢
  cases ret with
  | rpcId id => exact fun h => fact (won h)
  | _ => trivial

theorem ServiceInv.releasing {ret : Return} (inv : ServiceInv root s)
    (at_ : s.pc t = .releasing call ret) (advance : serviceAdvance root s t = some s') :
    ServiceInv root s' ∧ KeepsNodes root s.master s'.master := by
  have plain := inv.plain t call (by rw [at_]; rfl)
  have sync := inv.sync t
  rw [at_] at sync
  simp only [serviceAdvance, at_] at advance
  split at advance
  · rename_i name gen holding
    cases advance
    refine ⟨?_, fun _ _ _ => rfl⟩
    rw [holding] at sync
    have inv' := inv.goOn (inv.lock.next (.releaseLock t holding))
      (inv.plain t) (by rw [at_]; exact sync) fun online =>
        releasing_fact at_ _ (fun _ => by rw [holding]; simp [LockPc.won]) (inv.fact t online)
    have same : (s.setLock (s.lock.setPc t (.find name gen))).setPc t (s.pc t) =
        s.setLock (s.lock.setPc t (.find name gen)) := by
      simp [ServiceState.setPc, ServiceState.setLock]
    rwa [same] at inv'
  · rename_i idle
    cases advance
    refine ⟨inv.goOn_same (fun call' h => ?_) ?_ fun _ => ?_, fun _ _ _ => rfl⟩
    · unfold afterRelease at h
      split at h
      · split at h <;> cases h <;> exact plain
      · cases h
    · unfold afterRelease
      split
      · split <;> exact idle
      · exact idle
    · unfold afterRelease
      split
      · split <;> trivial
      · trivial
  · obtain ⟨l, moved, rfl⟩ := Option.map_eq_some_iff.1 advance
    obtain ⟨next, pcs, step, -⟩ := lockAdvance_next moved
    obtain ⟨inv', keeps⟩ := inv.lockStep (t := t) (fun name genNode => by
        rw [genNode] at sync
        cases sync) moved (fun next step => by rw [at_]; exact step.releases sync)
      fun next step fact => releasing_fact at_ next (step.won sync) fact
    refine ⟨?_, ?_⟩
    · unfold ServiceState.noteRelease
      split
      · rename_i name gen id erased
        refine ⟨inv'.lock, inv'.registry, inv'.plain, inv'.sync, inv'.fact, fun r mem => ?_⟩
        rcases List.mem_cons.1 mem with rfl | mem
        · -- the lock was held until this very step
          change l.pc t = _ at erased
          rw [pcs, update_self] at erased
          subst erased
          obtain ⟨path, deleting⟩ := step.of_erase
          have fact := inv.fact t (online_of_delNode deleting moved)
          rw [at_, deleting] at fact
          have same := (keeps call.segs plain.segs (.inl rfl)).trans (fact (by simp [LockPc.won]))
          show (l.master.path.lookup (root.join (servicePath call.api call.name))).map (·.value) =
            some (toText id)
          rw [lookup_value, join_servicePath]
          exact congrArg (Option.map Prod.snd) same
        · exact inv.released r mem
      · exact inv'
    · unfold ServiceState.noteRelease
      split <;> exact keeps

theorem ServiceInv.run (inv : ServiceInv root s) (room : Room root s t)
    (advance : serviceAdvance root s t = some s') : ServiceInv root s' := by
  have step := advance
  cases at_ : s.pc t with simp only [serviceAdvance, at_, reduceCtorEq] at step
  | acquiring => exact (inv.acquiring at_ room advance).1
  | releasing => exact (inv.releasing at_ advance).1
  | addApi => exact inv.addApi at_ step
  | getService => exact inv.getService at_ step
  | addGenerator => exact inv.addGenerator at_ step
  | genId => exact inv.genId at_ (room _ (by rw [ServiceState.generates, at_])) step
  | addService => exact inv.addService at_ step
  | delService => exact inv.delService at_ step
  | addServerGenerator => exact inv.addServerGenerator at_ step
  | genServerId => exact inv.genServerId at_ (room _ (by rw [ServiceState.generates, at_])) step
  | addServer => exact inv.addServer at_ rfl step
  | delServer => exact inv.delServer at_ step

variable {m : State}

theorem EmptyDir.persistent {p : Text} (empty : EmptyDir m p) : Persistent m p := by
  obtain ⟨d, hd, persistent, -⟩ := empty
  exact ⟨d.value, info_eq_some.2 ⟨d, hd, persistent, rfl⟩⟩

theorem EmptyDir.child_none {p k : Text} (tree : Tree m) (empty : EmptyDir m p)
    (slash : '/' ∉ k) : info m (child p k) = none := by
  obtain ⟨d, hd, -, none⟩ := empty
  exact (childless_iff tree hd).1 none k slash

theorem ServiceInv.start (start : ServiceInit root s) : ServiceInv root s := by
  have tree := start.lock.tree
  have rpc := start.dirs pathRpc (by decide)
  have generateId := start.dirs pathGenerateId (by decide)
  have api : ∀ api, Segment api → info s.master (root.node [pathRpc, api]) = none :=
    fun api segment => rpc.child_none tree segment.noSlash
  refine ⟨.initial start.lock, ⟨tree, rpc.persistent, generateId.persistent, ?_, ?_, ?_, ?_⟩, ?_, ?_, ?_, ?_⟩
  · intro a ha o v h
    rw [api a ha] at h
    cases h
  · intro a n ha hn o v h
    have none : info s.master (root.node [pathRpc, a, n]) = none := info_child_none tree (api a ha) hn.noSlash
    rw [none] at h
    cases h
  · intro a ha
    refine ⟨0, ⟨?_, by omega⟩, by simp [start.assigned]⟩
    by_contra nonzero
    obtain ⟨n, hn, -⟩ := tree.counted _ nonzero
    exact info_eq_none.1 (generateId.child_none tree ha.noSlash) (mem_path_iff.2 ⟨n, hn⟩)
  · rw [start.assigned]
    exact .nil
  · intro t call h
    rw [start.idle] at h
    cases h
  · intro t
    rw [start.idle, start.lock.idle]
    rfl
  · intro t _
    rw [start.idle]
    trivial
  · simp [start.released]

theorem ServiceInv.disconnect {c : ClientId} {temp : List Text}
    {notified : List (ClientId × Text)} (inv : ServiceInv root s)
    (collects : Collects s.master c temp)
    (clear : disconnectClearData s.master temp = some (m, notified)) :
    ServiceInv root
      (s.setLock { s.lock with master := m, offline := insert c s.lock.offline }) := by
  obtain ⟨-, nodes⟩ := info_disconnected inv.registry.tree collects clear
  refine ⟨inv.lock.next (.disconnect c collects clear), inv.registry.disconnect collects clear,
    inv.plain, inv.sync, fun t online => ?_, inv.released⟩
  have online' : t.client ∉ s.lock.offline := fun off => online (Finset.mem_insert_of_mem off)
  refine (inv.fact t online').keep (fun _ mem => mem) fun call holds => ?_
  have plain := inv.plain t call (subject_of_holdsFor holds)
  refine ⟨?_, ?_⟩
  · rintro ⟨v, hv⟩
    exact ⟨v, (nodes _).trans (by rw [hv]; rfl)⟩
  · refine (nodes _).trans ?_
    cases node : info s.master (root.node call.segs) with
    | none => rfl
    | some node' =>
      obtain ⟨o, v⟩ := node'
      obtain ⟨rfl, -⟩ := inv.registry.service _ _ plain.api plain.name o v node
      rfl

theorem ServiceInv.other {c : ClientId} {req : Request} {path : Text} {out : Outcome}
    (inv : ServiceInv root s) (online : c ∉ s.lock.offline) (target : req.target = some path)
    (outside : ∀ dir ∈ serviceDirectories, ¬ Below (root.join dir) path)
    (handled : handleOp s.master c [] req = some out) :
    ServiceInv root (s.setMaster out.state) ∧ KeepsNodes root s.master out.state := by
  have tree := inv.registry.tree
  have lock := inv.lock.next (.other c online target (outside pathLock (by decide)) handled)
  have tree' : Tree out.state := tree.of_handleOp (by rintro rfl; cases target) handled
  obtain ⟨registry, keeps⟩ := inv.registry.elsewhere tree'
    (handleOp_sameBelow tree.toTreeInv tree.rooted (.inl inv.registry.rpcDir.mem) target
      (outside pathRpc (by decide)) handled)
    (handleOp_sameBelow tree.toTreeInv tree.rooted (.inl inv.registry.generateDir.mem) target
      (outside pathGenerateId (by decide)) handled)
  refine ⟨⟨lock, registry, inv.plain, inv.sync, fun t online => ?_, inv.released⟩, keeps⟩
  exact (inv.fact t online).keep (fun _ mem => mem) fun call holds =>
    keeps.spares (inv.plain t call (subject_of_holdsFor holds))

theorem ServiceInv.next {allowed : ServiceState → ThreadId → Prop}
    (limited : ∀ s t, allowed s t → Room root s t) (inv : ServiceInv root s)
    (move : ServiceStep root ServiceCall.Plain allowed s s') : ServiceInv root s' := by
  cases move with
  | call t named idle => exact inv.begin named idle
  | run t ok advance => exact inv.run (limited s t ok) advance
  | disconnect c collects clear => exact (inv.disconnect collects clear).live _
  | other c online target outside handled => exact (inv.other online target outside handled).1

theorem ServiceReachable.inv {allowed : ServiceState → ThreadId → Prop}
    (limited : ∀ s t, allowed s t → Room root s t)
    (reachable : ServiceReachable root ServiceCall.Plain allowed s) : ServiceInv root s :=
  Reachable.invariant (ServiceInv root) (fun _ start => .start start)
    (fun _ _ inv move => inv.next limited move) reachable

theorem Registry.assigned_unique {assigned : List Assignment}
    (reg : Registry root m assigned) {a b : Assignment} (ha : a ∈ assigned) (hb : b ∈ assigned)
    (api : a.api = b.api) (id : a.rpcId = b.rpcId) : a = b := by
  by_contra ne
  have : Std.Symm fun a b : Assignment => a.api = b.api → a.rpcId ≠ b.rpcId :=
    ⟨fun a b h api => (h api.symm).symm⟩
  exact reg.distinct.forall ha hb ne api id

/-- Services of one api have different ids, each one that was assigned to it; whoever releases the
lock after registering returns the id that the node has; and no id is assigned twice. -/
theorem service_ids_agree (reachable : ServiceReachable root ServiceCall.Plain (Room root) s) :
    (∀ api name name' n n', Segment api → Segment name → Segment name' →
      s.master.path.lookup (root.join (servicePath api name)) = some n →
      s.master.path.lookup (root.join (servicePath api name')) = some n' →
      n.value = n'.value → name = name') ∧
    (∀ api name n, Segment api → Segment name →
      s.master.path.lookup (root.join (servicePath api name)) = some n →
      ∃ id, n.value = toText id ∧ ⟨api, name, id⟩ ∈ s.assigned) ∧
    (∀ r ∈ s.released, r.stored = some (toText r.rpcId)) ∧
    s.assigned.Pairwise fun a b => a.api = b.api → a.rpcId ≠ b.rpcId := by
  have inv := ServiceReachable.inv (fun _ _ room => room) reachable
  have assigned : ∀ api name n, Segment api → Segment name →
      s.master.path.lookup (root.join (servicePath api name)) = some n →
      ∃ id, n.value = toText id ∧ ⟨api, name, id⟩ ∈ s.assigned := by
    intro api name n ha hn node
    rw [join_servicePath] at node
    exact (inv.registry.service api name ha hn n.owner n.value (info_eq_some.2 ⟨n, node, rfl, rfl⟩)).2
  refine ⟨?_, assigned, inv.released, inv.registry.distinct⟩
  intro api name name' n n' ha hn hn' node node' same
  obtain ⟨id, value, mem⟩ := assigned api name n ha hn node
  obtain ⟨id', value', mem'⟩ := assigned api name' n' ha hn' node'
  have eq : id = id' := toText_injective (value.symm.trans (same.trans value'))
  exact congrArg Assignment.name (inv.registry.assigned_unique mem mem' rfl eq)

def registers (name : String) : ServiceCall := ⟨.registerRpcService, "a".toList, name.toList⟩

theorem service_ids_agree_two : ∃ s n n', ServiceReachable .default ServiceCall.Plain (Room .default) s ∧
    s.master.path.lookup "/root/_rpc_/a/x".toList = some n ∧
    s.master.path.lookup "/root/_rpc_/a/y".toList = some n' ∧ n.value ≠ n'.value ∧
    s.released.length = 2 ∧ ∀ r ∈ s.released, r.stored = some (toText r.rpcId) := by
  have ran : (serviceRun .default (fun s t => Room .default s t) (
      .call ⟨0, 0⟩ (registers "x") :: List.replicate 17 (.run ⟨0, 0⟩) ++
      .call ⟨1, 0⟩ (registers "y") :: List.replicate 17 (.run ⟨1, 0⟩))).any (fun s =>
        decide ("/root/_rpc_/a/x".toList ∈ s.master.path) &&
        decide ("/root/_rpc_/a/y".toList ∈ s.master.path) && s.released.length = 2) = true := by
    decide +kernel
  obtain ⟨s, run, h⟩ := (Option.any_eq_true ..).1 ran
  have reachable : ServiceReachable .default ServiceCall.Plain (Room .default) s :=
    serviceRun_reachable (fun _ _ => of_decide_eq_true) (by decide) run
  simp only [Bool.and_eq_true, decide_eq_true_eq] at h
  obtain ⟨n, hn⟩ := mem_path_iff.1 h.1.1
  obtain ⟨n', hn'⟩ := mem_path_iff.1 h.1.2
  obtain ⟨distinct, -, released, -⟩ := service_ids_agree reachable
  refine ⟨s, n, n', reachable, hn, hn', fun same => ?_, h.2, released⟩
  have eq := distinct "a".toList "x".toList "y".toList n n' (by decide) (by decide) (by decide)
    hn hn' same
  exact absurd eq (by decide)

/-- Once the service `x` was registered, the lock of `x/y` can be had, but the node of `x/y` cannot be
added without the node of `x`: the id that is returned is stored nowhere. A counter that has passed
`2 ^ 31` goes on with negative numbers, and their names read as the id 0 again. -/
theorem service_name_and_count : (∃ s r, ServiceReachable .default (fun _ => True) (Room .default) s ∧
      r ∈ s.released ∧ r.name = "x/y".toList ∧ r.stored = none) ∧
    int32 (2 ^ 31) < 0 ∧ idOf (genKey (-99999999)) = idOf (genKey 0) := by
  refine ⟨?_, by decide, by decide +kernel⟩
  have ran : (serviceRun .default (fun s t => Room .default s t) (
      .call ⟨0, 0⟩ (registers "x") :: List.replicate 17 (.run ⟨0, 0⟩) ++
      .call ⟨0, 0⟩ ⟨.deregisterRpcService, "a".toList, "x".toList⟩ :: List.replicate 13 (.run ⟨0, 0⟩) ++
      .call ⟨0, 0⟩ (registers "x/y") :: List.replicate 17 (.run ⟨0, 0⟩))).any
      (fun s => s.released.any fun r => r.name = "x/y".toList && r.stored = none) = true := by
    decide +kernel
  obtain ⟨s, run, h⟩ := (Option.any_eq_true ..).1 ran
  obtain ⟨r, mem, h⟩ := List.any_eq_true.1 h
  simp only [Bool.and_eq_true, decide_eq_true_eq] at h
  exact ⟨s, r, serviceRun_reachable (fun _ _ => of_decide_eq_true) (by decide) run, mem, h⟩

end Prpc.MasterClient
