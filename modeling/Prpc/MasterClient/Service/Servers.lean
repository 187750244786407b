import Prpc.MasterClient.Service.Ids

namespace Prpc.MasterClient
open Lib Master
open Function (update update_self update_of_ne)

variable {root : RootPath} {m m' : State} {s s' : ServiceState} {t : ThreadId} {call : ServiceCall}

def Job.isServer : Job → Bool
  | .registerServer _ _ => true
  | _ => false

/-- The call of a thread in `register_server` that has released its lock and has yet to add the
server's node, and the id it was told. -/
def pendingOf : ServicePc → LockPc → Option (ServiceCall × Int)
  | .releasing call (.rpcId id), .erase _ _ | .releasing call (.rpcId id), .idle =>
    if call.job.isServer then some (call, id) else none
  | .addServerGenerator call _ id, _ | .genServerId call _ id, _ | .addServer call _ id _, _ =>
    some (call, id)
  | _, _ => none

/-- A service without servers is not deleted while a connected thread is about to add a server. -/
def Careful (root : RootPath) (s : ServiceState) (t : ThreadId) : Prop :=
  ∀ call n, s.pc t = .delService call →
    s.master.path.lookup (root.join (servicePath call.api call.name)) = some n → n.sub = ∅ →
    ∀ t' call' id, pendingOf (s.pc t') (s.lock.pc t') = some (call', id) →
      call'.api = call.api → call'.name = call.name → t'.client ∈ s.lock.offline

def IsServer (k v : Text) : Prop :=
  ∃ serverId rank : Int, (-2 ^ 31 ≤ serverId ∧ serverId < 2 ^ 31) ∧ (-2 ^ 31 ≤ rank ∧ rank < 2 ^ 31) ∧
    k = toText serverId ∧ v = toText rank

structure Stable (root : RootPath) (m m' : State) : Prop where
  kept : ∀ l, Plain l → l.head? = some pathRpc → info m (root.node l) ≠ none →
    info m' (root.node l) = info m (root.node l)
  servers : ∀ api name k o v, Plain [pathRpc, api, name, k] →
    info m' (root.node [pathRpc, api, name, k]) = some (o, v) →
    info m (root.node [pathRpc, api, name, k]) = some (o, v) ∨ IsServer k v

theorem Stable.refl (root : RootPath) (m : State) : Stable root m m :=
  ⟨fun _ _ _ _ => rfl, fun _ _ _ _ _ _ h => .inl h⟩

theorem KeepsNodes.stable (keeps : KeepsNodes root m m') : Stable root m m' :=
  ⟨fun l plain head _ => keeps l plain (.inl head), fun _ _ _ _ _ plain h =>
    .inl ((keeps _ plain (.inl rfl)).symm.trans h)⟩

theorem Added.stable {l : List Text} {node : Option ClientId × Text}
    (added : Added m m' (root.node l) node) (hl : Plain l)
    (server : ∀ api name k, l = [pathRpc, api, name, k] → IsServer k node.2) : Stable root m m' := by
  refine ⟨fun l' _ _ present => added.of_ne fun eq => ?_, fun api name k o v plain h => ?_⟩
  · rw [eq] at present
    exact present added.fresh
  · rw [added.nodes] at h
    split at h
    · rename_i eq
      cases h
      exact .inr (server api name k ((node_inj plain hl).1 eq).symm)
    · exact .inl h

structure Live (root : RootPath) (m : State) (p : Text) (reg : Registration) : Prop where
  api : Segment reg.api
  name : Segment reg.name
  path : p = root.node [pathRpc, reg.api, reg.name, toText reg.serverId]
  node : ∃ c, info m p = some (some c, toText reg.globalRank.toInt)
  service : info m (root.node [pathRpc, reg.api, reg.name]) = some (none, toText reg.rpcId)

variable {p : Text} {reg : Registration}

theorem Live.keep (live : Live root m p reg)
    (node : info m' p = info m p) (service : info m' (root.node [pathRpc, reg.api, reg.name]) =
      info m (root.node [pathRpc, reg.api, reg.name])) : Live root m' p reg :=
  ⟨live.api, live.name, live.path, node ▸ live.node, service.trans live.service⟩

theorem Live.stable (live : Live root m p reg)
    (stable : Stable root m m') : Live root m' p reg := by
  obtain ⟨c, hc⟩ := live.node
  refine live.keep ?_ (stable.kept _ (plain_service live.api live.name) rfl ?_)
  · rw [live.path] at hc ⊢
    exact stable.kept _ (plain_server live.api live.name _) rfl (by simp [hc])
  · rw [live.service]
    simp

structure ServerInv (root : RootPath) (s : ServiceState) : Prop where
  range : ∀ t call rank id serverId, s.pc t = .addServer call rank id serverId →
    -2 ^ 31 ≤ serverId ∧ serverId < 2 ^ 31
  servers : ∀ api name k o v, Plain [pathRpc, api, name, k] →
    info s.master (root.node [pathRpc, api, name, k]) = some (o, v) → IsServer k v
  pending : ∀ t call id, t.client ∉ s.lock.offline → pendingOf (s.pc t) (s.lock.pc t) = some (call, id) →
    info s.master (root.node call.segs) = some (none, toText id)
  live : ∀ p reg, s.live p = some reg → Live root s.master p reg

theorem subject_of_pendingOf {pc : ServicePc} {lpc : LockPc} {id : Int}
    (pending : pendingOf pc lpc = some (call, id)) : pc.subject = some call := by
  unfold pendingOf at pending
  split at pending <;> simp_all [ServicePc.subject]

section
variable (inv : ServerInv root s) (service : ServiceInv root s)
include inv service

theorem ServerInv.moved
    (stable : Stable root s.master s'.master) (offline : s'.lock.offline = s.lock.offline)
    (live : s'.live = s.live)
    (others : ∀ t', t' ≠ t → s'.pc t' = s.pc t' ∧ s'.lock.pc t' = s.lock.pc t')
    (range : ∀ call rank id serverId, s'.pc t = .addServer call rank id serverId →
      -2 ^ 31 ≤ serverId ∧ serverId < 2 ^ 31)
    (pending : ∀ call id, t.client ∉ s.lock.offline → pendingOf (s'.pc t) (s'.lock.pc t) = some (call, id) →
      call.Plain ∧ info s.master (root.node call.segs) = some (none, toText id)) :
    ServerInv root s' := by
  refine ⟨fun t' call rank id serverId h => ?_, fun api name k o v plain h => ?_,
    fun t' call id online h => ?_, fun p reg h => ?_⟩
  · by_cases eq : t' = t
    · exact range call rank id serverId (eq ▸ h)
    · exact inv.range t' call rank id serverId ((others t' eq).1 ▸ h)
  · rcases stable.servers api name k o v plain h with old | new
    · exact inv.servers api name k o v plain old
    · exact new
  · rw [offline] at online
    have before : call.Plain ∧ info s.master (root.node call.segs) = some (none, toText id) := by
      by_cases eq : t' = t
      · exact pending call id (eq ▸ online) (eq ▸ h)
      · rw [(others t' eq).1, (others t' eq).2] at h
        exact ⟨service.plain t' call (subject_of_pendingOf h), inv.pending t' call id online h⟩
    rw [stable.kept _ before.1.segs rfl (by simp [before.2])]
    exact before.2
  · rw [live] at h
    exact (inv.live p reg h).stable stable

theorem ServerInv.request {next : ServicePc}
    {assigned : List Assignment} (stable : Stable root s.master m)
    (range : ∀ call rank id serverId, next = .addServer call rank id serverId →
      -2 ^ 31 ≤ serverId ∧ serverId < 2 ^ 31)
    (pending : ∀ call id, pendingOf next (s.lock.pc t) = some (call, id) →
      pendingOf (s.pc t) (s.lock.pc t) = some (call, id)) :
    ServerInv root ({ s.setMaster m with assigned }.setPc t next) := by
  refine inv.moved (t := t) service stable rfl rfl (fun t' ne => ⟨update_of_ne ne _ _, rfl⟩)
    (fun call rank id serverId h => ?_) fun call id online h => ?_
  · change update s.pc t next t = _ at h
    rw [update_self] at h
    exact range call rank id serverId h
  · change pendingOf (update s.pc t next t) (s.lock.pc t) = _ at h
    rw [update_self] at h
    have before := pending call id h
    exact ⟨service.plain t call (subject_of_pendingOf before), inv.pending t call id online before⟩

theorem ServerInv.acquiring
    (at_ : s.pc t = .acquiring call) (room : Room root s t)
    (advance : serviceAdvance root s t = some s') : ServerInv root s' := by
  have stable := (service.acquiring at_ room advance).2.stable
  simp only [serviceAdvance, at_] at advance
  split at advance
  · cases advance
    refine inv.request service (.refl _ _) (fun _ _ _ _ h => ?_) fun call' id h => ?_
    · unfold afterAcquire at h
      split at h <;> cases h
    · unfold afterAcquire at h
      split at h <;> cases h
  · obtain ⟨l, moved, rfl⟩ := Option.map_eq_some_iff.1 advance
    obtain ⟨next, pcs, step, offline⟩ := lockAdvance_next moved
    refine inv.moved (t := t) service stable offline rfl (fun t' ne => ⟨rfl, ?_⟩)
      (inv.range t) fun call' id _ h => ?_
    · show l.pc t' = _
      rw [pcs, update_of_ne ne]
    · change pendingOf (s.pc t) _ = _ at h
      rw [at_] at h
      cases h

end

theorem pendingOf_releasing {ret : Return} {lpc : LockPc} {call' : ServiceCall} {id : Int}
    (pending : pendingOf (.releasing call ret) lpc = some (call', id)) :
    call = call' ∧ ret = .rpcId id ∧ call.job.isServer = true ∧
      (lpc = .idle ∨ ∃ name gen, lpc = .erase name gen) := by
  cases ret with
  | rpcId id' =>
    have after : lpc = .idle ∨ ∃ name gen, lpc = .erase name gen := by
      cases lpc <;> simp_all [pendingOf]
    have told : call.job.isServer = true ∧ call = call' ∧ id' = id := by
      rcases after with rfl | ⟨name, gen, rfl⟩ <;> simpa [pendingOf] using pending
    exact ⟨told.2.1, by rw [told.2.2], told.1, after⟩
  | _ => cases pending

theorem ServerInv.releasing {ret : Return} (inv : ServerInv root s) (service : ServiceInv root s)
    (at_ : s.pc t = .releasing call ret) (advance : serviceAdvance root s t = some s') :
    ServerInv root s' := by
  have plain := service.plain t call (by rw [at_]; rfl)
  have stable := (service.releasing at_ advance).2.stable
  simp only [serviceAdvance, at_] at advance
  split at advance
  · rename_i name gen holding
    cases advance
    refine inv.moved (t := t) service stable rfl rfl
      (fun t' ne => ⟨rfl, update_of_ne ne _ _⟩) (inv.range t) fun call' id _ h => ?_
    change pendingOf (s.pc t) (update s.lock.pc t (.find name gen) t) = _ at h
    rw [at_, update_self] at h
    cases ret <;> cases h
  · rename_i idle
    cases advance
    refine inv.request service (.refl _ _) (fun call' rank id serverId h => ?_) fun call' id h => ?_
    · unfold afterRelease at h
      split at h
      · rename_i rank' sid _ _
        split at h
        · cases h
        · cases h
          exact ⟨sid.minValue_le_toInt, sid.toInt_lt⟩
      · cases h
    · rw [at_, idle]
      unfold afterRelease at h
      split at h
      · rename_i rank' sid id' job
        have eq : (call, id') = (call', id) := by
          split at h <;> exact Option.some.inj h
        rw [← eq, pendingOf, if_pos (by rw [job]; rfl)]
      · cases h
  · obtain ⟨l, moved, rfl⟩ := Option.map_eq_some_iff.1 advance
    obtain ⟨next, pcs, step, offline⟩ := lockAdvance_next moved
    have note : ∀ s₁ : ServiceState, (s₁.noteRelease root t call ret).pc = s₁.pc ∧
        (s₁.noteRelease root t call ret).lock = s₁.lock ∧
        (s₁.noteRelease root t call ret).live = s₁.live := by
      intro s₁
      unfold ServiceState.noteRelease
      split <;> exact ⟨rfl, rfl, rfl⟩
    obtain ⟨notePc, noteLock, noteLive⟩ := note (s.setLock l)
    refine inv.moved (t := t) service stable ?_ noteLive (fun t' ne => ⟨?_, ?_⟩)
      (fun call rank id serverId h => ?_) fun call' id online h => ?_
    · rw [noteLock]
      exact offline
    · rw [notePc]
      rfl
    · rw [noteLock]
      show l.pc t' = _
      rw [pcs, update_of_ne ne]
    · rw [notePc] at h
      exact inv.range t call rank id serverId h
    · rw [notePc, noteLock] at h
      change pendingOf (s.pc t) (l.pc t) = _ at h
      rw [at_, pcs, update_self] at h
      obtain ⟨rfl, rfl, server, after⟩ := pendingOf_releasing h
      refine ⟨plain, ?_⟩
      rcases after with rfl | ⟨name, gen, rfl⟩
      · -- it was `pending` before the table forgot the lock
        obtain ⟨name, gen, erasing⟩ := step.of_idle
        refine inv.pending t call id online ?_
        rw [at_, erasing]
        exact if_pos server
      · obtain ⟨path, deleting⟩ := step.of_erase
        have fact := service.fact t online
        rw [at_, deleting] at fact
        exact fact (by simp [LockPc.won])

theorem ServerInv.enlist (inv : ServerInv root s)
    (live : Live root s.master p reg) : ServerInv root (s.enlist p reg) := by
  refine ⟨inv.range, inv.servers, inv.pending, fun q reg' h => ?_⟩
  change update s.live p (some reg) q = some reg' at h
  by_cases eq : q = p
  · rw [eq, update_self] at h
    cases h
    exact eq ▸ live
  · rw [update_of_ne eq] at h
    exact inv.live q reg' h

theorem ServerInv.addServer {rank : Int32} {id serverId : Int} (inv : ServerInv root s)
    (service : ServiceInv root s) (at_ : s.pc t = .addServer call rank id serverId)
    (asked : s.ask t (treeNodeAdd root s.master t.client (serverPath call.api call.name serverId)
        (toText rank.toInt) true)
      (fun s added =>
        (if added then s.enlist (root.join (serverPath call.api call.name serverId))
          ⟨call.api, call.name, rank, id, serverId⟩ else s).setPc t
          (.idle (.server added id serverId))) = some s') : ServerInv root s' := by
  have plain := service.plain t call (by rw [at_]; rfl)
  have hl := plain_server plain.api plain.name serverId
  have range := inv.range t call rank id serverId at_
  obtain ⟨m, added, online, rfl, -, result⟩ := service.add (l := [pathRpc, call.api, call.name])
    (join_serverPath root call.api call.name serverId) hl (.inl rfl) asked
  have told := inv.pending t call id online (by rw [at_]; rfl)
  have on : Stable root s.master m → ServerInv root ((s.setMaster m).setPc t
      (.idle (.server added id serverId))) := fun stable =>
    inv.request service stable (by rintro _ _ _ _ ⟨⟩) (by rintro _ _ ⟨⟩)
  rcases result with ⟨rfl, rfl, -⟩ | ⟨rfl, added⟩
  · exact on (.refl _ _)
  · have stable : Stable root s.master m := by
      refine added.stable hl ?_
      rintro api name k ⟨⟩
      exact ⟨serverId, rank.toInt, range, ⟨rank.minValue_le_toInt, rank.toInt_lt⟩, rfl, rfl⟩
    refine (on stable).enlist ⟨plain.api, plain.name, join_serverPath .., ⟨t.client, ?_⟩, ?_⟩
    · rw [join_serverPath]
      exact (added.nodes _).trans (if_pos rfl)
    · exact (stable.kept _ plain.segs rfl (by simp [told])).trans told

theorem info_eq_of_old (old : ∀ o v, info m' p = some (o, v) → info m p = some (o, v))
    (present : info m' p ≠ none) : info m' p = info m p := by
  obtain ⟨⟨o, v⟩, h⟩ := Option.ne_none_iff_exists'.1 present
  rw [h, old o v h]

theorem ServerInv.shrunk (inv : ServerInv root s)
    (old : ∀ p o v, info s'.master p = some (o, v) → info s.master p = some (o, v))
    (range : ∀ t call rank id serverId, s'.pc t = .addServer call rank id serverId →
      s.pc t = .addServer call rank id serverId)
    (pending : ∀ t call id, t.client ∉ s'.lock.offline →
      pendingOf (s'.pc t) (s'.lock.pc t) = some (call, id) → t.client ∉ s.lock.offline ∧
        pendingOf (s.pc t) (s.lock.pc t) = some (call, id) ∧
        info s'.master (root.node call.segs) ≠ none)
    (live : ∀ p reg, s'.live p = some reg → s.live p = some reg ∧ info s'.master p ≠ none ∧
      info s'.master (root.node [pathRpc, reg.api, reg.name]) ≠ none) : ServerInv root s' := by
  refine ⟨fun t call rank id serverId h => inv.range t call rank id serverId (range _ _ _ _ _ h),
    fun api name k o v plain h => inv.servers api name k o v plain (old _ o v h),
    fun t call id online h => ?_, fun p reg h => ?_⟩
  · obtain ⟨online', before, present⟩ := pending t call id online h
    exact (info_eq_of_old (old _) present).trans (inv.pending t call id online' before)
  · obtain ⟨before, present, present'⟩ := live p reg h
    exact (inv.live p reg before).keep (info_eq_of_old (old _) present)
      (info_eq_of_old (old _) present')

theorem Deleted.old {p q : Text} (deleted : Deleted m m' p) (o : Option ClientId) (v : Text)
    (h : info m' q = some (o, v)) : info m q = some (o, v) := by
  rw [deleted.nodes] at h
  split at h
  · cases h
  · exact h

theorem Deleted.present_of_ne {p q : Text} (deleted : Deleted m m' p) (ne : q ≠ p)
    (present : info m q ≠ none) : info m' q ≠ none := by
  rwa [deleted.of_ne ne]

theorem ServerInv.delService (inv : ServerInv root s) (service : ServiceInv root s)
    (at_ : s.pc t = .delService call) (careful : Careful root s t)
    (asked : s.ask t (treeNodeDel root s.master t.client (servicePath call.api call.name))
      (fun s ret => s.setPc t (.releasing call (.flag ret))) = some s') : ServerInv root s' := by
  have plain := service.plain t call (by rw [at_]; rfl)
  obtain ⟨m, deleted, online, rfl, -, result⟩ := service.del (l := [pathRpc, call.api])
    (join_servicePath root call.api call.name) plain.segs (.inl rfl) asked
  rcases result with ⟨-, rfl, -⟩ | ⟨-, deleted⟩
  · exact inv.request service (.refl _ _) (by rintro _ _ _ _ ⟨⟩) (by rintro _ _ ⟨⟩)
  · have deleted : Deleted s.master m (root.node call.segs) := deleted
    obtain ⟨n, hn⟩ : ∃ n, s.master.path.lookup (root.node call.segs) = some n := by
      have present := deleted.present
      rw [ne_eq, info_eq_none, not_not] at present
      exact mem_path_iff.1 present
    have childless := (childless_iff service.registry.tree hn).2 deleted.childless
    refine inv.shrunk (fun p => deleted.old) (fun t' call' rank id serverId h => ?_)
      (fun t' call' id online' h => ?_) fun p reg h => ⟨h, ?_, ?_⟩
    · change update s.pc t _ t' = _ at h
      by_cases eq : t' = t
      · rw [eq, update_self] at h
        cases h
      · rwa [update_of_ne eq] at h
    · change pendingOf (update s.pc t _ t') (s.lock.pc t') = _ at h
      by_cases eq : t' = t
      · rw [eq, update_self] at h
        cases h
      · rw [update_of_ne eq] at h
        have plain' := service.plain t' call' (subject_of_pendingOf h)
        have told := inv.pending t' call' id online' h
        refine ⟨online', h, deleted.present_of_ne ?_ (by simp [told])⟩
        intro same
        have segs := (node_inj plain'.segs plain.segs).1 same
        simp only [ServiceCall.segs, List.cons.injEq, true_and, and_true] at segs
        rw [← join_segs] at hn
        exact online' (careful call n at_ hn childless t' call' id h segs.1 segs.2)
    · obtain ⟨c, hc⟩ := (inv.live p reg h).node
      refine deleted.present_of_ne ?_ (by simp [hc])
      rw [(inv.live p reg h).path, ne_eq,
        node_inj (plain_server (inv.live p reg h).api (inv.live p reg h).name _) plain.segs]
      simp [ServiceCall.segs]
    · have live := inv.live p reg h
      obtain ⟨c, hc⟩ := live.node
      refine deleted.present_of_ne ?_ (by simp [live.service])
      intro same
      have none := deleted.childless (toText reg.serverId) (slash_notMem_toText _)
      rw [← same, child_node] at none
      rw [live.path] at hc
      exact absurd (none.symm.trans hc) (by simp)

theorem mem_of_prune (h : s.prune.live p = some reg) : s.live p = some reg ∧ info s.master p ≠ none := by
  change (if p ∈ s.master.path then s.live p else none) = some reg at h
  rw [Option.ite_none_right_eq_some] at h
  refine ⟨h.2, ?_⟩
  rw [ne_eq, info_eq_none, not_not]
  exact h.1

section
variable (inv : ServerInv root s) (service : ServiceInv root s)
include inv service

theorem ServerInv.delServer {serverId : Int32} (at_ : s.pc t = .delServer call serverId)
    (asked : s.ask t (treeNodeDel root s.master t.client (serverPath call.api call.name serverId.toInt))
      (fun s ret => s.prune.setPc t (.idle (.flag ret))) = some s') : ServerInv root s' := by
  have plain := service.plain t call (by rw [at_]; rfl)
  have hl := plain_server plain.api plain.name serverId.toInt
  obtain ⟨m, deleted, online, rfl, -, result⟩ := service.del (l := [pathRpc, call.api, call.name])
    (join_serverPath root call.api call.name serverId.toInt) hl (.inl rfl)
    asked
  have old : ∀ p o v, info m p = some (o, v) → info s.master p = some (o, v) := by
    rcases result with ⟨-, rfl, -⟩ | ⟨-, deleted⟩
    · exact fun p o v h => h
    · exact fun p => deleted.old
  have kept : ∀ {api name : Text}, Segment api → Segment name →
      info s.master (root.node [pathRpc, api, name]) ≠ none →
      info m (root.node [pathRpc, api, name]) ≠ none := by
    intro api name ha hn present
    rcases result with ⟨-, rfl, -⟩ | ⟨-, deleted⟩
    · exact present
    · refine deleted.present_of_ne (fun eq => ?_) present
      have short := (node_inj (plain_service ha hn) hl).1 eq
      simp at short
  refine inv.shrunk old (fun t' call' rank id serverId h => ?_) (fun t' call' id online' h => ?_)
    fun p reg h => ?_
  · change update s.pc t _ t' = _ at h
    by_cases eq : t' = t
    · rw [eq, update_self] at h
      cases h
    · rwa [update_of_ne eq] at h
  · change pendingOf (update s.pc t _ t') (s.lock.pc t') = _ at h
    by_cases eq : t' = t
    · rw [eq, update_self] at h
      cases h
    · rw [update_of_ne eq] at h
      have plain' := service.plain t' call' (subject_of_pendingOf h)
      have told := inv.pending t' call' id online' h
      exact ⟨online', h, kept plain'.api plain'.name (by
        rw [ServiceCall.segs] at told
        simp [told])⟩
  · obtain ⟨before, present⟩ := mem_of_prune (s := s.setMaster m) h
    have live := inv.live p reg before
    exact ⟨before, present, kept live.api live.name (by simp [live.service])⟩

theorem ServerInv.disconnect {c : ClientId} {temp : List Text} {notified : List (ClientId × Text)} (collects : Collects s.master c temp)
    (clear : disconnectClearData s.master temp = some (m, notified)) :
    ServerInv root
      (s.setLock { s.lock with master := m, offline := insert c s.lock.offline }).prune := by
  obtain ⟨-, nodes⟩ := info_disconnected service.registry.tree collects clear
  have old : ∀ p o v, info m p = some (o, v) → info s.master p = some (o, v) := by
    intro p o v h
    rw [nodes, Option.filter_eq_some_iff] at h
    exact h.1
  have kept : ∀ {p v}, info s.master p = some (none, v) → info m p ≠ none := by
    intro p v h
    rw [nodes, h]
    simp [Option.filter]
  refine inv.shrunk old (fun t call rank id serverId h => h) (fun t call id online h => ?_)
    fun p reg h => ?_
  · have online' : t.client ∉ s.lock.offline := fun off => online (Finset.mem_insert_of_mem off)
    exact ⟨online', h, kept (inv.pending t call id online' h)⟩
  · obtain ⟨before, present⟩ := mem_of_prune h
    exact ⟨before, present, kept (inv.live p reg before).service⟩

theorem ServerInv.run (room : Room root s t)
    (careful : Careful root s t) (advance : serviceAdvance root s t = some s') :
    ServerInv root s' := by
  cases at_ : s.pc t with
  | idle | failed => simp [serviceAdvance, at_] at advance
  | acquiring call => exact inv.acquiring service at_ room advance
  | releasing call ret => exact inv.releasing service at_ advance
  | addApi call =>
    simp only [serviceAdvance, at_] at advance
    have plain := service.plain t call (by rw [at_]; rfl)
    obtain ⟨m, added, -, rfl, -, result⟩ := service.add (l := [pathRpc])
      (join_apiPath root call.api) (plain_api plain.api) (.inl rfl)
      advance
    refine inv.request service ?_ (by rintro _ _ _ _ ⟨⟩) (by rintro _ _ ⟨⟩)
    rcases result with ⟨-, rfl, -⟩ | ⟨-, added⟩
    · exact .refl _ _
    · exact added.stable (plain_api plain.api) (by rintro _ _ _ ⟨⟩)
  | getService call =>
    simp only [serviceAdvance, at_] at advance
    have plain := service.plain t call (by rw [at_]; rfl)
    have valid : masterCheckValidPath (root.node call.segs) = true :=
      valid_node (l := [pathRpc, call.api]) plain.segs
    rw [treeNodeGet_info service.registry.tree (by rw [join_servicePath]; exact valid)] at advance
    obtain ⟨-, ⟨⟨⟩, -⟩ | ⟨_, ⟨⟩, rfl⟩⟩ := ServiceState.ask_cases advance
    refine inv.request service (.refl _ _) (fun _ _ _ _ h => ?_) fun call' id h => ?_
    · unfold afterGet at h
      split at h
      · cases h
      · split at h <;> cases h
    · unfold afterGet at h
      split at h
      · cases h
      · split at h
        · cases h
        · -- the lock is still held here
          obtain ⟨gen, held⟩ := (at_ ▸ service.sync t : Sync (.getService call) (s.lock.pc t))
          rw [held] at h
          cases h
  | addGenerator call =>
    simp only [serviceAdvance, at_] at advance
    have plain := service.plain t call (by rw [at_]; rfl)
    obtain ⟨m, added, -, rfl, -, result⟩ := service.add (l := [pathGenerateId])
      (join_generatorPath root call.api) (plain_generator plain.api)
      (.inr rfl) advance
    refine inv.request service ?_ (by rintro _ _ _ _ ⟨⟩) (by rintro _ _ ⟨⟩)
    rcases result with ⟨-, rfl, -⟩ | ⟨-, added⟩
    · exact .refl _ _
    · exact added.stable (plain_generator plain.api) (by rintro _ _ _ ⟨⟩)
  | genId call =>
    simp only [serviceAdvance, at_] at advance
    have plain := service.plain t call (by rw [at_]; rfl)
    obtain ⟨m, -, -, -, keeps, rfl | ⟨rfl, -⟩⟩ := service.generate plain.api
      (room _ (by rw [ServiceState.generates, at_])) (fun _ => rfl) advance
    · exact inv.request service keeps.stable (by rintro _ _ _ _ ⟨⟩) (by rintro _ _ ⟨⟩)
    · split
      · exact inv.request service keeps.stable (by rintro _ _ _ _ ⟨⟩) (by rintro _ _ ⟨⟩)
      · exact inv.request service keeps.stable (by rintro _ _ _ _ ⟨⟩) (by rintro _ _ ⟨⟩)
  | addService call id =>
    simp only [serviceAdvance, at_] at advance
    have plain := service.plain t call (by rw [at_]; rfl)
    obtain ⟨m, added, -, rfl, -, result⟩ := service.add (l := [pathRpc, call.api])
      (join_servicePath root call.api call.name) plain.segs (.inl rfl)
      advance
    refine inv.request service ?_ (by rintro _ _ _ _ ⟨⟩) fun call' id h => ?_
    · rcases result with ⟨-, rfl, -⟩ | ⟨-, added⟩
      · exact .refl _ _
      · exact added.stable plain.segs (by rintro _ _ _ ⟨⟩)
    · obtain ⟨gen, held⟩ := (at_ ▸ service.sync t : Sync (.addService call _) (s.lock.pc t))
      rw [held] at h
      cases h
  | delService call =>
    simp only [serviceAdvance, at_] at advance
    exact inv.delService service at_ careful advance
  | addServerGenerator call rank id =>
    simp only [serviceAdvance, at_] at advance
    have plain := service.plain t call (by rw [at_]; rfl)
    obtain ⟨m, added, -, rfl, -, result⟩ := service.add (l := [pathGenerateId])
      (join_generatorPath root call.key) (plain_generator plain.key)
      (.inr rfl) advance
    refine inv.request service ?_ (by rintro _ _ _ _ ⟨⟩) fun call' id h => by rw [at_]; exact h
    rcases result with ⟨-, rfl, -⟩ | ⟨-, added⟩
    · exact .refl _ _
    · exact added.stable (plain_generator plain.key) (by rintro _ _ _ ⟨⟩)
  | genServerId call rank id =>
    simp only [serviceAdvance, at_] at advance
    have plain := service.plain t call (by rw [at_]; rfl)
    obtain ⟨m, -, -, -, keeps, rfl | ⟨rfl, -⟩⟩ := service.generate plain.key
      (room _ (by rw [ServiceState.generates, at_])) (fun _ => rfl) advance
    · exact inv.request service keeps.stable (by rintro _ _ _ _ ⟨⟩) (by rintro _ _ ⟨⟩)
    · split
      · exact inv.request service keeps.stable (by rintro _ _ _ _ ⟨⟩) (by rintro _ _ ⟨⟩)
      · rename_i serverId parsed
        refine inv.request service keeps.stable ?_ fun call' id h => by rw [at_]; exact h
        rintro _ _ _ _ ⟨⟩
        rw [idOf, Option.ite_none_right_eq_some] at parsed
        exact stoi_range parsed.2
  | addServer call rank id serverId =>
    simp only [serviceAdvance, at_] at advance
    exact inv.addServer service at_ advance
  | delServer call serverId =>
    simp only [serviceAdvance, at_] at advance
    exact inv.delServer service at_ advance

end

theorem ServerInv.start (start : ServiceInit root s) : ServerInv root s := by
  have rpc := start.dirs pathRpc (by decide)
  refine ⟨fun t call rank id serverId h => ?_, fun api name k o v plain h => ?_,
    fun t call id _ h => ?_, fun p reg h => ?_⟩
  · rw [start.idle] at h
    cases h
  · have noApi : info s.master (root.node [pathRpc, api]) = none :=
      rpc.child_none start.lock.tree (plain api (by simp)).noSlash
    have noService : info s.master (root.node [pathRpc, api, name]) = none :=
      info_child_none start.lock.tree noApi (plain name (by simp)).noSlash
    have none : info s.master (root.node [pathRpc, api, name, k]) = none :=
      info_child_none start.lock.tree noService (plain k (by simp)).noSlash
    rw [none] at h
    cases h
  · rw [start.idle] at h
    cases h
  · rw [start.live] at h
    cases h

theorem ServerInv.next (inv : ServerInv root s) (service : ServiceInv root s)
    (move : ServiceStep root ServiceCall.Plain (fun s t => Room root s t ∧ Careful root s t) s s') :
    ServerInv root s' := by
  cases move with
  | @call t call ret named idle =>
    have sync := service.sync t
    rw [idle] at sync
    unfold ServiceState.begin
    split
    · exact inv.request service (.refl _ _) (by rintro _ _ _ _ ⟨⟩) (by rintro _ _ ⟨⟩)
    · refine inv.moved (t := t) service (.refl _ _) rfl rfl
        (fun t' ne => ⟨update_of_ne ne _ _, update_of_ne ne _ _⟩)
        (fun call' rank id serverId h => ?_) fun call' id _ h => ?_
      · change update s.pc t _ t = _ at h
        rw [update_self] at h
        cases h
      · change pendingOf (update s.pc t _ t) _ = _ at h
        rw [update_self] at h
        cases h
  | run t ok advance => exact inv.run service ok.1 ok.2 advance
  | disconnect c collects clear => exact inv.disconnect service collects clear
  | other c online target outside handled =>
    obtain ⟨-, keeps⟩ := service.other online target outside handled
    exact inv.moved (t := ⟨c, 0⟩) service keeps.stable rfl rfl (fun _ _ => ⟨rfl, rfl⟩)
      (inv.range _) fun call id online h =>
        ⟨service.plain _ call (subject_of_pendingOf h), inv.pending _ call id online h⟩

theorem ServiceReachable.servers
    (reachable : ServiceReachable root ServiceCall.Plain
      (fun s t => Room root s t ∧ Careful root s t) s) : ServiceInv root s ∧ ServerInv root s :=
  Reachable.invariant (fun s => ServiceInv root s ∧ ServerInv root s)
    (fun _ start => ⟨.start start, .start start⟩)
    (fun _ _ inv move => ⟨inv.1.next (fun _ _ ok => ok.1) move, inv.2.next inv.1 move⟩) reachable

theorem readServers_ok {c : ClientId} {path : Text} {sids : List Text}
    (all : ∀ sid ∈ sids, ∃ v, IsServer sid v ∧ (treeNodeGet root m c (child path sid)).2 = some (some v)) :
    ∃ servers, readServers root m c path sids = some servers ∧
      ∀ (serverId rank : Int), toText serverId ∈ sids → -2 ^ 31 ≤ rank ∧ rank < 2 ^ 31 →
        (treeNodeGet root m c (child path (toText serverId))).2 = some (some (toText rank)) →
        ⟨serverId, commRank rank⟩ ∈ servers := by
  induction sids with
  | nil => exact ⟨[], rfl, fun _ _ mem => by cases mem⟩
  | cons sid sids ih =>
    obtain ⟨v, ⟨serverId, rank, idRange, rankRange, rfl, rfl⟩, got⟩ := all sid (List.mem_cons_self ..)
    obtain ⟨servers, read, mem⟩ := ih fun sid h => all sid (List.mem_cons_of_mem _ h)
    refine ⟨⟨serverId, commRank rank⟩ :: servers, ?_, fun serverId' rank' h range got' => ?_⟩
    · simp [readServers, got, read, picoLexicalCastInt_toText idRange.1 idRange.2,
        picoLexicalCastInt_toText rankRange.1 rankRange.2]
    · rcases List.mem_cons.1 h with same | later
      · obtain rfl := toText_injective same
        rw [got, Option.some.injEq, Option.some.injEq] at got'
        rw [toText_injective got']
        exact List.mem_cons_self ..
      · exact List.mem_cons_of_mem _ (mem serverId' rank' later range got')

theorem Live.reported (live : Live root s.master p reg)
    (service : ServiceInv root s) (inv : ServerInv root s) (c : ClientId) :
    ∃ found, getRpcServiceInfo root s.master c reg.api reg.name = some (some found) ∧
      found.rpcId = reg.rpcId ∧ ⟨reg.serverId, commRank reg.globalRank.toInt⟩ ∈ found.servers := by
  have tree := service.registry.tree
  have hs := plain_service live.api live.name
  have valid : masterCheckValidPath (root.join (servicePath reg.api reg.name)) = true := by
    rw [join_servicePath]
    exact valid_node (l := [pathRpc, reg.api]) hs
  obtain ⟨n, hn, -, value⟩ := info_eq_some.1 live.service
  obtain ⟨c', hc⟩ := live.node
  have range : -2 ^ 31 ≤ reg.rpcId ∧ reg.rpcId < 2 ^ 31 := by
    obtain ⟨-, id, same, mem⟩ := service.registry.service _ _ live.api live.name _ _ live.service
    rw [toText_injective same]
    exact service.registry.id_range (a := ⟨reg.api, reg.name, id⟩) live.api mem
  have child_get : ∀ k v o, Segment k → info s.master (root.node [pathRpc, reg.api, reg.name, k]) =
      some (o, v) → (treeNodeGet root s.master c (child (servicePath reg.api reg.name) k)).2 =
        some (some v) := by
    intro k v o segment h
    have hk : Plain [pathRpc, reg.api, reg.name, k] := by
      simp [Plain, segment_pathRpc, live.api, live.name, segment]
    have join : root.join (child (servicePath reg.api reg.name) k) =
        root.node [pathRpc, reg.api, reg.name, k] := by
      rw [join_child, join_servicePath, child_node]
      rfl
    rw [treeNodeGet_info tree (by rw [join]; exact valid_node (l := [pathRpc, reg.api, reg.name]) hk),
      join, h]
    rfl
  have kids : ∀ k ∈ n.sub.sort, ∃ v, IsServer k v ∧
      (treeNodeGet root s.master c (child (servicePath reg.api reg.name) k)).2 = some (some v) := by
    intro k mem
    rw [Finset.mem_sort] at mem
    obtain ⟨slash, present⟩ := tree.children _ n hn k mem
    have segment : Segment k := by
      have valid' := (tree.valid _ present).resolve_left (by simp [child])
      exact ⟨((valid_child_iff slash).1 valid').2, slash⟩
    obtain ⟨it, hit⟩ := mem_path_iff.1 present
    rw [child_node] at hit
    have node : info s.master (root.node [pathRpc, reg.api, reg.name, k]) =
        some (it.owner, it.value) := info_eq_some.2 ⟨it, hit, rfl, rfl⟩
    refine ⟨it.value, inv.servers reg.api reg.name k it.owner it.value ?_ node,
      child_get k it.value it.owner segment node⟩
    simp [Plain, segment_pathRpc, live.api, live.name, segment]
  obtain ⟨servers, read, mem⟩ := readServers_ok kids
  refine ⟨⟨reg.name, reg.rpcId, servers⟩, ?_, rfl, mem _ _ ?_ ?_ ?_⟩
  · have node : s.master.path.lookup (root.join (servicePath reg.api reg.name)) = some n := by
      rw [join_servicePath, hn]
    simp [getRpcServiceInfo, treeNodeGet_info tree valid, treeNodeSub_eq tree valid, node,
      join_servicePath, live.service, picoLexicalCastInt_toText range.1 range.2, read]
  · rw [Finset.mem_sort]
    obtain ⟨it, hit, -⟩ := info_eq_some.1 hc
    rw [live.path] at hit
    obtain ⟨pit, hp, -, key⟩ := tree.parent _ it hit
      (ne_nil_of_valid (valid_node (l := [pathRpc, reg.api, reg.name]) (plain_server live.api live.name _)))
    have split : root.node [pathRpc, reg.api, reg.name, toText reg.serverId] =
        child (root.node [pathRpc, reg.api, reg.name]) (toText reg.serverId) := by
      rw [child_node]
      rfl
    rw [split, parentOf_child (slash_notMem_toText _), hn] at hp
    rw [split, keyOf_child (slash_notMem_toText _)] at key
    cases hp
    exact key
  · exact ⟨reg.globalRank.minValue_le_toInt, reg.globalRank.toInt_lt⟩
  · rw [live.path] at hc
    exact child_get _ _ _ (segment_toText _) hc

/-- While the node of a registered server is there, its service is there with the id that the
server was told, and is reported with both. -/
theorem registered_servers_agree
    (reachable : ServiceReachable root ServiceCall.Plain
      (fun s t => Room root s t ∧ Careful root s t) s) {p : Text} {reg : Registration}
    (registered : s.live p = some reg) :
    p = root.join (serverPath reg.api reg.name reg.serverId) ∧ p ∈ s.master.path ∧
    (∃ n, s.master.path.lookup (root.join (servicePath reg.api reg.name)) = some n ∧
      n.value = toText reg.rpcId) ∧
    ∀ c, ∃ found, getRpcServiceInfo root s.master c reg.api reg.name = some (some found) ∧
      found.rpcId = reg.rpcId ∧ ⟨reg.serverId, commRank reg.globalRank.toInt⟩ ∈ found.servers := by
  obtain ⟨service, inv⟩ := ServiceReachable.servers reachable
  have live := inv.live p reg registered
  refine ⟨live.path.trans (join_serverPath ..).symm, ?_, ?_, live.reported service inv⟩
  · obtain ⟨c, hc⟩ := live.node
    obtain ⟨it, hit, -⟩ := info_eq_some.1 hc
    exact mem_path_iff.2 ⟨it, hit⟩
  · obtain ⟨n, hn, -, value⟩ := info_eq_some.1 live.service
    exact ⟨n, by rw [join_servicePath, hn], value⟩

theorem registered_servers_agree_alone : ∃ s reg found, ServiceReachable .default ServiceCall.Plain
      (fun s t => Room .default s t ∧ Careful .default s t) s ∧
    s.live "/root/_rpc_/a/x/5".toList = some reg ∧
    getRpcServiceInfo .default s.master 1 "a".toList "x".toList = some (some found) ∧
    found.rpcId = reg.rpcId ∧ ⟨5, 3⟩ ∈ found.servers := by
  have ran : (serviceRun .default (fun s t => Room .default s t && !(s.pc t matches .delService _))
      (.call ⟨0, 0⟩ ⟨.registerServer 3 5, "a".toList, "x".toList⟩ ::
        List.replicate 18 (.run ⟨0, 0⟩))).any (fun s =>
      s.live "/root/_rpc_/a/x/5".toList = some ⟨"a".toList, "x".toList, 3, 0, 5⟩) = true := by
    decide +kernel
  obtain ⟨s, run, h⟩ := (Option.any_eq_true ..).1 ran
  have reachable : ServiceReachable .default ServiceCall.Plain
      (fun s t => Room .default s t ∧ Careful .default s t) s := by
    refine serviceRun_reachable (fun s t ok => ?_) (by decide) run
    simp only [Bool.and_eq_true, decide_eq_true_eq, Bool.not_eq_true'] at ok
    refine ⟨ok.1, fun call n deletes => ?_⟩
    rw [deletes] at ok
    exact absurd ok.2 (by simp)
  have registered := of_decide_eq_true h
  obtain ⟨-, -, -, reported⟩ := registered_servers_agree reachable registered
  obtain ⟨found, get, id, mem⟩ := reported 1
  exact ⟨s, _, found, reachable, registered, get, id, mem⟩

/-- Between the release of the lock and the node of the server the service is deleted and registered
again: the server was told the id 0, and the service has the id 1. -/
theorem server_under_another_id : ∃ s reg n, ServiceReachable .default ServiceCall.Plain (Room .default) s ∧
    s.pc ⟨0, 0⟩ = .idle (.server true 0 5) ∧ s.live "/root/_rpc_/a/x/5".toList = some reg ∧
    "/root/_rpc_/a/x/5".toList ∈ s.master.path ∧ reg.rpcId = 0 ∧
    s.master.path.lookup "/root/_rpc_/a/x".toList = some n ∧ n.value = "1".toList := by
  have ran : (serviceRun .default (fun s t => Room .default s t)
      (.call ⟨0, 0⟩ ⟨.registerServer 3 5, "a".toList, "x".toList⟩ :: List.replicate 17 (.run ⟨0, 0⟩) ++
      .call ⟨1, 0⟩ ⟨.deregisterRpcService, "a".toList, "x".toList⟩ :: List.replicate 13 (.run ⟨1, 0⟩) ++
      .call ⟨1, 0⟩ (registers "x") :: List.replicate 17 (.run ⟨1, 0⟩) ++ [.run ⟨0, 0⟩])).any (fun s =>
      s.pc ⟨0, 0⟩ = .idle (.server true 0 5) &&
      s.live "/root/_rpc_/a/x/5".toList = some ⟨"a".toList, "x".toList, 3, 0, 5⟩ &&
      decide ("/root/_rpc_/a/x/5".toList ∈ s.master.path) &&
      (s.master.path.lookup "/root/_rpc_/a/x".toList).any (·.value = "1".toList)) = true := by
    decide +kernel
  obtain ⟨s, run, h⟩ := (Option.any_eq_true ..).1 ran
  simp only [Bool.and_eq_true, decide_eq_true_eq] at h
  obtain ⟨n, hn, value⟩ := (Option.any_eq_true ..).1 h.2
  exact ⟨s, _, n, serviceRun_reachable (fun _ _ => of_decide_eq_true) (by decide) run, h.1.1.1,
    h.1.1.2, h.1.2, rfl, hn, of_decide_eq_true value⟩

end Prpc.MasterClient
