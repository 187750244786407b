import Prpc.Rpc.ServiceInfo.Model

namespace Prpc.ServiceInfo
open Lib

variable {F : Type} {clientSockets : Finmap fun _ : Int16 => F} {list : List RpcServiceInfo}

structure Distinct (list : List RpcServiceInfo) : Prop where
  names : (list.map (·.rpcServiceName)).Nodup
  rpcIds : (list.map (·.rpcId)).Nodup
  serverIds : ∀ info ∈ list, (info.servers.map (·.serverId)).Nodup

def Listed (list : List RpcServiceInfo) (rpcId : Int32) (server : ServerInfo) : Prop :=
  ∃ info ∈ list, info.rpcId = rpcId ∧ server ∈ info.servers

def Known (clientSockets : Finmap fun _ : Int16 => F) (list : List RpcServiceInfo) (rpcId serverId : Int32) :
    Prop :=
  ∃ rank ∈ clientSockets, Listed list rpcId ⟨serverId, rank⟩

def Serves (available : F → Bool) (clientSockets : Finmap fun _ : Int16 => F) (list : List RpcServiceInfo)
    (rpcId serverId : Int32) (frontend : F) : Prop :=
  ∃ rank, Listed list rpcId ⟨serverId, rank⟩ ∧ clientSockets.lookup rank = some frontend ∧
    available frontend = true

abbrev Entry := Int32 × ServerInfo

def Entry.ids (e : Entry) : Int32 × Int32 := (e.1, e.2.serverId)

def Entry.pack (e : Entry) : BitVec 64 := rpcSidPack e.1 e.2.serverId

def entries (rpcInfo : List RpcServiceInfo) : List Entry :=
  rpcInfo.flatMap fun info => info.servers.map (info.rpcId, ·)

variable {e : Entry}

theorem mem_entries {rpcInfo : List RpcServiceInfo} : e ∈ entries rpcInfo ↔ Listed rpcInfo e.1 e.2 := by
  obtain ⟨rpcId, server⟩ := e
  simp only [entries, Listed, List.mem_flatMap, List.mem_map, Prod.mk.injEq]
  constructor
  · rintro ⟨info, mem, server', there, rfl, rfl⟩
    exact ⟨info, mem, rfl, there⟩
  · rintro ⟨info, mem, rfl, there⟩
    exact ⟨info, mem, server, there, rfl, rfl⟩

namespace Context

variable {c c' : Context F} {es : List Entry}

def addEntry (c : Context F) (e : Entry) : Option (Context F) := c.addServer e.1 e.2

theorem foldlM_addService (c : Context F) (rpcInfo : List RpcServiceInfo) :
    rpcInfo.foldlM addService c = (entries rpcInfo).foldlM addEntry c := by
  induction rpcInfo generalizing c with
  | nil => rfl
  | cons info rpcInfo ih =>
    rw [List.foldlM_cons, entries, List.flatMap_cons, List.foldlM_append, List.foldlM_map]
    show (c.addService info >>= _) = (c.addService info >>= _)
    congr 1
    funext c
    exact ih c

def serverInfo (c : Context F) (rpcId serverId : Int32) : Option ServerInfo :=
  (c.rpcServerInfo.lookup rpcId).bind (·.lookup serverId)

structure Holds (c : Context F) (es : List Entry) : Prop where
  known : ∀ e ∈ es, e.2.globalRank ∈ c.clientSockets
  nodup : (es.map Entry.pack).Nodup
  packed : ∀ key frontend, c.rpcServerIdFrontend.lookup key = some frontend ↔
    ∃ e ∈ es, e.pack = key ∧ c.clientSockets.lookup e.2.globalRank = some frontend
  info : ∀ rpcId serverId server, c.serverInfo rpcId serverId = some server ↔
    (rpcId, server) ∈ es ∧ server.serverId = serverId

theorem holds_clear (c : Context F) (rpcInfo : List RpcServiceInfo) :
    Holds { c.clear with rpcInfo := rpcInfo } [] :=
  ⟨by simp, by simp, by simp [clear], by simp [clear, serverInfo]⟩

theorem Holds.mem_packed (holds : c.Holds es) {key : BitVec 64} :
    key ∈ c.rpcServerIdFrontend ↔ key ∈ es.map Entry.pack := by
  rw [Finmap.mem_iff, List.mem_map]
  constructor
  · rintro ⟨frontend, found⟩
    obtain ⟨e, mem, eq, -⟩ := (holds.packed key frontend).1 found
    exact ⟨e, mem, eq⟩
  · rintro ⟨e, mem, eq⟩
    obtain ⟨frontend, socket⟩ := Finmap.mem_iff.1 (holds.known e mem)
    exact ⟨frontend, (holds.packed key frontend).2 ⟨e, mem, eq, socket⟩⟩

theorem addEntry_taken (taken : e.pack ∈ c.rpcServerIdFrontend) : c.addEntry e = none := by
  rw [addEntry, addServer]
  split
  · rfl
  · exact if_pos taken

def entered (c : Context F) (e : Entry) (frontend : F) : Context F :=
  { c with
    rpcServerInfo := c.rpcServerInfo.insert e.1
      (((c.rpcServerInfo.lookup e.1).getD ∅).insert e.2.serverId e.2)
    rpcServerFrontend := c.rpcServerFrontend.insert e.1
      ((c.rpcServerFrontend.lookup e.1).getD [] ++ [frontend])
    rpcServerIdFrontend := c.rpcServerIdFrontend.insert e.pack frontend }

variable {frontend : F}

theorem addEntry_free (free : e.pack ∉ c.rpcServerIdFrontend)
    (socket : c.clientSockets.lookup e.2.globalRank = some frontend) :
    c.addEntry e = some (c.entered e frontend) := by
  rw [addEntry, addServer, socket]
  exact if_neg free

theorem serverInfo_entered (c : Context F) (e : Entry) (frontend : F) (rpcId serverId : Int32) :
    (c.entered e frontend).serverInfo rpcId serverId =
      if rpcId = e.1 ∧ serverId = e.2.serverId then some e.2 else c.serverInfo rpcId serverId := by
  rw [serverInfo, entered]
  by_cases service : rpcId = e.1
  · subst service
    rw [Finmap.lookup_insert, Option.bind_some]
    by_cases server : serverId = e.2.serverId
    · subst server
      rw [Finmap.lookup_insert, if_pos ⟨rfl, rfl⟩]
    · rw [Finmap.lookup_insert_of_ne _ server, if_neg fun both => server both.2, serverInfo]
      cases c.rpcServerInfo.lookup e.1 with
      | none => rfl
      | some servers => rfl
  · rw [Finmap.lookup_insert_of_ne _ service, if_neg fun both => service both.1, serverInfo]

theorem Holds.entered (holds : c.Holds es)
    (free : e.pack ∉ c.rpcServerIdFrontend)
    (socket : c.clientSockets.lookup e.2.globalRank = some frontend) :
    (c.entered e frontend).Holds (es ++ [e]) := by
  have unused : e.pack ∉ es.map Entry.pack := fun mem => free (holds.mem_packed.2 mem)
  refine ⟨fun e' mem => ?_, ?_, fun key front => ?_, fun rpcId serverId server => ?_⟩
  · rcases List.mem_append.1 mem with old | new
    · exact holds.known e' old
    · rw [List.mem_singleton.1 new]
      exact Finmap.mem_iff.2 ⟨frontend, socket⟩
  · rw [List.map_append, List.map_singleton]
    exact List.nodup_append.2 ⟨holds.nodup, List.nodup_singleton _, fun key mem _ new eq =>
      unused (by rwa [← List.mem_singleton.1 new, ← eq])⟩
  · show (c.rpcServerIdFrontend.insert e.pack frontend).lookup key = some front ↔ _
    simp only [List.mem_append, List.mem_singleton, or_and_right, exists_or, exists_eq_left]
    by_cases eq : key = e.pack
    · subst eq
      rw [Finmap.lookup_insert]
      constructor
      · rintro ⟨⟩
        exact .inr ⟨rfl, socket⟩
      · rintro (⟨e', mem, same, -⟩ | ⟨-, found⟩)
        · exact absurd (List.mem_map.2 ⟨e', mem, same⟩) unused
        · exact socket.symm.trans found
    · rw [Finmap.lookup_insert_of_ne _ eq, holds.packed]
      exact ⟨.inl, fun either => either.resolve_right fun both => eq both.1.symm⟩
  · rw [serverInfo_entered, List.mem_append, List.mem_singleton]
    by_cases eq : rpcId = e.1 ∧ serverId = e.2.serverId
    · rw [if_pos eq]
      obtain ⟨rfl, rfl⟩ := eq
      constructor
      · rintro ⟨⟩
        exact ⟨.inr rfl, rfl⟩
      · rintro ⟨mem | same, id⟩
        · refine absurd (List.mem_map.2 ⟨_, mem, ?_⟩) unused
          rw [Entry.pack, Entry.pack, id]
        · rw [← same]
    · rw [if_neg eq, holds.info]
      constructor
      · rintro ⟨mem, id⟩
        exact ⟨.inl mem, id⟩
      · rintro ⟨mem | same, id⟩
        · exact ⟨mem, id⟩
        · exact absurd ⟨by rw [← same], by rw [← same, ← id]⟩ eq

theorem Holds.enterAll (holds : c.Holds es) {more : List Entry}
    (known : ∀ e ∈ more, e.2.globalRank ∈ c.clientSockets) :
    (((es ++ more).map Entry.pack).Nodup → ∃ c', more.foldlM addEntry c = some c' ∧
        c'.clientSockets = c.clientSockets ∧ c'.Holds (es ++ more)) ∧
      (¬ ((es ++ more).map Entry.pack).Nodup → more.foldlM addEntry c = none) := by
  induction more generalizing c es with
  | nil =>
    rw [List.append_nil]
    exact ⟨fun _ => ⟨c, rfl, rfl, holds⟩, fun twice => absurd holds.nodup twice⟩
  | cons e more ih =>
    rw [List.foldlM_cons]
    by_cases taken : e.pack ∈ c.rpcServerIdFrontend
    · rw [addEntry_taken taken]
      refine ⟨fun nodup => ?_, fun _ => rfl⟩
      rw [List.map_append, List.map_cons, List.nodup_append] at nodup
      exact absurd rfl (nodup.2.2 _ (holds.mem_packed.1 taken) _ (List.mem_cons_self ..))
    · obtain ⟨frontend, socket⟩ := Finmap.mem_iff.1 (known e (List.mem_cons_self ..))
      rw [addEntry_free taken socket]
      have rest := ih (holds.entered taken socket) fun e' mem => known e' (List.mem_cons_of_mem _ mem)
      rwa [List.append_assoc, List.singleton_append] at rest

theorem Holds.getClientFrontendBySid_eq_some (holds : c.Holds es) {available : F → Bool}
    {rpcId serverId : Int32} :
    c.getClientFrontendBySid available rpcId serverId = some frontend ↔
      ∃ e ∈ es, e.pack = rpcSidPack rpcId serverId ∧
        c.clientSockets.lookup e.2.globalRank = some frontend ∧ available frontend = true := by
  have first : ∀ front, (c.rpcServerIdFrontend.lookup (rpcSidPack rpcId serverId)).filter available =
      some front ↔ ∃ e ∈ es, e.pack = rpcSidPack rpcId serverId ∧
        c.clientSockets.lookup e.2.globalRank = some front ∧ available front = true := by
    intro front
    rw [Option.filter_eq_some_iff, holds.packed]
    constructor
    · rintro ⟨⟨e, mem, eq, socket⟩, ready⟩
      exact ⟨e, mem, eq, socket, ready⟩
    · rintro ⟨e, mem, eq, socket, ready⟩
      exact ⟨⟨e, mem, eq, socket⟩, ready⟩
  rw [getClientFrontendBySid]
  split
  · rename_i front found
    rw [← found]
    exact first frontend
  · rename_i missed
    refine ⟨fun found => ?_, fun there => ?_⟩
    · obtain ⟨server, info, ready⟩ : ∃ server, c.serverInfo rpcId serverId = some server ∧
          c.getClientFrontendByRank available server.globalRank = some frontend := by
        rw [serverInfo]
        split at found
        · cases found
        · rename_i servers known
          split at found
          · cases found
          · rename_i server known'
            exact ⟨server, by rw [known, Option.bind_some, known'], found⟩
      obtain ⟨mem, rfl⟩ := (holds.info _ _ _).1 info
      obtain ⟨socket, ready⟩ := Option.filter_eq_some_iff.1 ready
      exact ⟨_, mem, rfl, socket, ready⟩
    · rw [(first frontend).2 there] at missed
      cases missed

end Context

theorem foldl_emplaceInfo {rpcInfo rest : List RpcServiceInfo}
    (names : ((rpcInfo ++ rest).map (·.rpcServiceName)).Nodup) :
    rest.foldl emplaceInfo rpcInfo = rpcInfo ++ rest := by
  induction rest generalizing rpcInfo with
  | nil => exact (List.append_nil _).symm
  | cons info rest ih =>
    have new : ¬ (rpcInfo.any fun other => other.rpcServiceName = info.rpcServiceName) = true := by
      intro any
      obtain ⟨other, mem, eq⟩ := List.any_eq_true.1 any
      rw [List.map_append, List.map_cons, List.nodup_append] at names
      exact names.2.2 _ (List.mem_map_of_mem mem) _ (List.mem_cons_self ..) (of_decide_eq_true eq)
    rw [List.foldl_cons, emplaceInfo, if_neg new]
    rw [← List.singleton_append, ← List.append_assoc] at names
    rw [ih names, List.append_assoc, List.singleton_append]

theorem ids_nodup {rpcInfo : List RpcServiceInfo} (rpcIds : (rpcInfo.map (·.rpcId)).Nodup)
    (serverIds : ∀ info ∈ rpcInfo, (info.servers.map (·.serverId)).Nodup) :
    ((entries rpcInfo).map Entry.ids).Nodup := by
  induction rpcInfo with
  | nil => exact List.nodup_nil
  | cons info rpcInfo ih =>
    obtain ⟨new, rpcIds⟩ := List.nodup_cons.1 rpcIds
    obtain ⟨own, serverIds⟩ := List.forall_mem_cons.1 serverIds
    rw [entries, List.flatMap_cons, List.map_append, List.map_map]
    refine List.nodup_append.2 ⟨?_, ih rpcIds serverIds, ?_⟩
    · refine List.Nodup.of_map Prod.snd ?_
      rwa [List.map_map]
    · rintro ids here _ there rfl
      obtain ⟨server, -, rfl⟩ := List.mem_map.1 here
      obtain ⟨e, mem, eq⟩ := List.mem_map.1 there
      obtain ⟨other, mem', same, -⟩ := mem_entries.1 mem
      refine new (List.mem_map.2 ⟨other, mem', ?_⟩)
      exact same.trans (Prod.mk.inj eq).1

def Collide (r s r' s' : Int32) : Prop := s.toInt - s'.toInt = 1000000007 * (r'.toInt - r.toInt)

theorem rpcSidPack_eq_iff {r s r' s' : Int32} : rpcSidPack r s = rpcSidPack r' s' ↔ Collide r s r' s' := by
  have toInt_pack : ∀ r s : Int32, (rpcSidPack r s).toInt = r.toInt * 1000000007 + s.toInt := by
    intro r s
    have := r.le_toInt
    have := r.toInt_lt
    have := s.le_toInt
    have := s.toInt_lt
    rw [rpcSidPack, BitVec.toInt_ofInt]
    exact Int.bmod_eq_of_le (by omega) (by omega)
  rw [← BitVec.toInt_inj, toInt_pack, toInt_pack, Collide]
  omega

/-- No two servers that are entered collide, and the one that is looked for collides with none that could
be returned in its place. -/
structure PacksApart (available : F → Bool) (clientSockets : Finmap fun _ : Int16 => F)
    (list : List RpcServiceInfo) (rpcId serverId : Int32) : Prop where
  known : ∀ r s r' s', Known clientSockets list r s → Known clientSockets list r' s' →
    Collide r s r' s' → r = r' ∧ s = s'
  asked : ∀ r s frontend, Serves available clientSockets list r s frontend →
    Collide r s rpcId serverId → r = rpcId ∧ s = serverId

def visited (order : Iteration RpcServiceInfo) (clientSockets : Finmap fun _ : Int16 => F)
    (list : List RpcServiceInfo) : List Entry :=
  entries (order.visit (list.map (RpcServiceInfo.keepKnown clientSockets)))

theorem mem_visited (order : Iteration RpcServiceInfo) :
    e ∈ visited order clientSockets list ↔ Listed list e.1 e.2 ∧ e.2.globalRank ∈ clientSockets := by
  rw [visited, mem_entries]
  constructor
  · rintro ⟨info, mem, id, server⟩
    obtain ⟨info, inList, rfl⟩ := List.mem_map.1 ((order.perm _).mem_iff.1 mem)
    obtain ⟨server, known⟩ := List.mem_filter.1 server
    exact ⟨⟨info, inList, id, server⟩, of_decide_eq_true known⟩
  · rintro ⟨⟨info, mem, id, server⟩, known⟩
    exact ⟨_, (order.perm _).mem_iff.2 (List.mem_map_of_mem mem), id,
      List.mem_filter.2 ⟨server, decide_eq_true known⟩⟩

theorem Distinct.visited_nodup (distinct : Distinct list) (order : Iteration RpcServiceInfo)
    (clientSockets : Finmap fun _ : Int16 => F) :
    ((visited order clientSockets list).map Entry.ids).Nodup := by
  have perm := order.perm (list.map (RpcServiceInfo.keepKnown clientSockets))
  refine ids_nodup ((perm.map _).nodup_iff.2 ?_) fun info mem => ?_
  · rw [List.map_map]
    exact distinct.rpcIds
  · obtain ⟨info, inList, rfl⟩ := List.mem_map.1 (perm.mem_iff.1 mem)
    exact (distinct.serverIds info inList).sublist ((List.filter_sublist ..).map _)

theorem Distinct.updateServiceInfo_eq (distinct : Distinct list) (order : Iteration RpcServiceInfo)
    (c : Context F) : ∃ rpcInfo, c.updateServiceInfo order list =
      (visited order c.clientSockets list).foldlM Context.addEntry { c.clear with rpcInfo := rpcInfo } := by
  have names : (([] ++ list.map (RpcServiceInfo.keepKnown c.clientSockets)).map
      RpcServiceInfo.rpcServiceName).Nodup := by
    rw [List.nil_append, List.map_map]
    exact distinct.names
  refine ⟨order.visit (list.map (RpcServiceInfo.keepKnown c.clientSockets)), ?_⟩
  rw [Context.updateServiceInfo, foldl_emplaceInfo names, List.nil_append, Context.foldlM_addService]
  rfl

theorem known_iff_visited (order : Iteration RpcServiceInfo) {r s : Int32} :
    Known clientSockets list r s ↔ (r, s) ∈ (visited order clientSockets list).map Entry.ids := by
  rw [List.mem_map]
  constructor
  · rintro ⟨rank, known, listed⟩
    exact ⟨(r, ⟨s, rank⟩), (mem_visited order).2 ⟨listed, known⟩, rfl⟩
  · rintro ⟨⟨rpcId, server⟩, mem, eq⟩
    obtain ⟨rfl, rfl⟩ := Prod.mk.inj eq
    obtain ⟨listed, known⟩ := (mem_visited order).1 mem
    exact ⟨server.globalRank, known, listed⟩

theorem serves_iff_visited (order : Iteration RpcServiceInfo) {available : F → Bool} {r s : Int32}
    {frontend : F} :
    Serves available clientSockets list r s frontend ↔ ∃ e ∈ visited order clientSockets list,
      e.ids = (r, s) ∧ clientSockets.lookup e.2.globalRank = some frontend ∧ available frontend = true := by
  constructor
  · rintro ⟨rank, listed, socket, ready⟩
    exact ⟨(r, ⟨s, rank⟩), (mem_visited order).2 ⟨listed, Finmap.mem_iff.2 ⟨frontend, socket⟩⟩, rfl,
      socket, ready⟩
  · rintro ⟨⟨rpcId, server⟩, mem, eq, socket, ready⟩
    obtain ⟨rfl, rfl⟩ := Prod.mk.inj eq
    exact ⟨server.globalRank, ((mem_visited order).1 mem).1, socket, ready⟩

theorem Distinct.packs_nodup_iff (distinct : Distinct list) (order : Iteration RpcServiceInfo) :
    ((visited order clientSockets list).map Entry.pack).Nodup ↔
      ∀ r s r' s', Known clientSockets list r s → Known clientSockets list r' s' →
        Collide r s r' s' → r = r' ∧ s = s' := by
  have packs : (visited order clientSockets list).map Entry.pack =
      ((visited order clientSockets list).map Entry.ids).map fun ids => rpcSidPack ids.1 ids.2 := by
    rw [List.map_map]
    rfl
  rw [packs, List.nodup_map_iff_inj_on (distinct.visited_nodup order clientSockets)]
  simp only [known_iff_visited order, Prod.forall, Prod.mk.injEq, rpcSidPack_eq_iff]
  constructor
  · intro apart r s r' s' here there
    exact apart r s here r' s' there
  · intro apart r s here r' s' there
    exact apart r s r' s' here there

/-- `update_service_info` passes its check, and the lookup afterwards returns the `FrontEnd` of the
server asked for if that server is listed with an available socket and null otherwise, exactly when no
identifiers collide. -/
theorem lookup_by_sid_exact_iff (order : Iteration RpcServiceInfo) (c : Context F) (available : F → Bool)
    (list : List RpcServiceInfo) (distinct : Distinct list) (rpcId serverId : Int32) :
    (∃ c', c.updateServiceInfo order list = some c' ∧ ∀ frontend,
        c'.getClientFrontendBySid available rpcId serverId = some frontend ↔
          Serves available c.clientSockets list rpcId serverId frontend) ↔
      PacksApart available c.clientSockets list rpcId serverId := by
  obtain ⟨rpcInfo, update⟩ := distinct.updateServiceInfo_eq order c
  have entered := (Context.holds_clear c rpcInfo).enterAll
    fun e (mem : e ∈ visited order c.clientSockets list) => ((mem_visited order).1 mem).2
  rw [List.nil_append, distinct.packs_nodup_iff order] at entered
  rw [update]
  constructor
  · rintro ⟨c', eq, exact_⟩
    have apart : ∀ r s r' s', Known c.clientSockets list r s → Known c.clientSockets list r' s' →
        Collide r s r' s' → r = r' ∧ s = s' := by
      by_contra failed
      rw [entered.2 failed] at eq
      cases eq
    obtain ⟨_, eq', sockets, holds⟩ := entered.1 apart
    rw [eq] at eq'
    cases eq'
    refine ⟨apart, fun r s frontend serves same => ?_⟩
    -- What is found under the number is the entry of `r` and `s`, so that is the one asked for.
    obtain ⟨e, mem, ids, socket, ready⟩ := (serves_iff_visited order).1 serves
    obtain ⟨rfl, rfl⟩ := Prod.mk.inj ids
    have found := (exact_ frontend).1 (holds.getClientFrontendBySid_eq_some.2
      ⟨e, mem, rpcSidPack_eq_iff.2 same, by rw [sockets]; exact socket, ready⟩)
    obtain ⟨rank, listed, socket', -⟩ := found
    exact apart _ _ _ _ ⟨_, Finmap.mem_iff.2 ⟨frontend, socket⟩, ((mem_visited order).1 mem).1⟩
      ⟨rank, Finmap.mem_iff.2 ⟨frontend, socket'⟩, listed⟩ same
  · rintro ⟨apart, asked⟩
    obtain ⟨c', eq, sockets, holds⟩ := entered.1 apart
    refine ⟨c', eq, fun frontend => ?_⟩
    have sockets : c'.clientSockets = c.clientSockets := sockets
    rw [holds.getClientFrontendBySid_eq_some, serves_iff_visited order, sockets]
    constructor
    · rintro ⟨e, mem, same, socket, ready⟩
      have serves : Serves available c.clientSockets list e.1 e.2.serverId frontend :=
        (serves_iff_visited order).2 ⟨e, mem, rfl, socket, ready⟩
      obtain ⟨service, server⟩ := asked _ _ frontend serves (rpcSidPack_eq_iff.1 same)
      exact ⟨e, mem, by rw [Entry.ids, service, server], socket, ready⟩
    · rintro ⟨e, mem, ids, socket, ready⟩
      obtain ⟨rfl, rfl⟩ := Prod.mk.inj ids
      exact ⟨e, mem, rfl, socket, ready⟩

def oneSocket : Context Nat := ⟨Finmap.singleton 0 7, [], ∅, ∅, ∅⟩

def inOrder : Iteration RpcServiceInfo := ⟨id, fun _ => .refl _⟩

theorem lookup_by_sid_exact_one : (∃ c', oneSocket.updateServiceInfo inOrder [⟨[], 1, [⟨2, 0⟩]⟩] = some c' ∧
    ∀ frontend, c'.getClientFrontendBySid (fun _ => true) 1 2 = some frontend ↔
      Serves (fun _ => true) oneSocket.clientSockets [⟨[], 1, [⟨2, 0⟩]⟩] 1 2 frontend) := by
  refine (lookup_by_sid_exact_iff inOrder oneSocket (fun _ => true) [⟨[], 1, [⟨2, 0⟩]⟩]
    ⟨by decide, by decide, by decide⟩ 1 2).2 ⟨?_, ?_⟩
  · rintro r s r' s' ⟨_, _, _, mem, rfl, server⟩ ⟨_, _, _, mem', rfl, server'⟩ -
    simp only [List.mem_singleton] at mem mem'
    subst mem mem'
    simp only [List.mem_singleton, ServerInfo.mk.injEq] at server server'
    exact ⟨rfl, server.1.trans server'.1.symm⟩
  · rintro r s frontend ⟨_, ⟨_, mem, rfl, server⟩, _⟩ -
    rw [List.mem_singleton] at mem
    subst mem
    rw [List.mem_singleton, ServerInfo.mk.injEq] at server
    exact ⟨rfl, server.1⟩

def serviceZero : RpcServiceInfo := ⟨['a'], 0, [⟨1000000007, 0⟩]⟩

def serviceOne : RpcServiceInfo := ⟨['b'], 1, [⟨0, 0⟩]⟩

/-- Server 1000000007 of service 0 and server 0 of service 1 have one number: with both listed the check
fails, and with one of them listed the other one is answered for. -/
theorem packed_ids_collide : Distinct [serviceZero, serviceOne] ∧
      oneSocket.updateServiceInfo inOrder [serviceZero, serviceOne] = none ∧
    Distinct [serviceOne] ∧ (∀ rank, ¬ Listed [serviceOne] 0 ⟨1000000007, rank⟩) ∧
      (oneSocket.updateServiceInfo inOrder [serviceOne]).map
        (·.getClientFrontendBySid (fun _ => true) 0 1000000007) = some (some 7) := by
  refine ⟨⟨by decide, by decide, by decide⟩, by decide +kernel, ⟨by decide, by decide, by decide⟩, ?_,
    by decide +kernel⟩
  rintro rank ⟨info, mem, id, -⟩
  rw [List.mem_singleton] at mem
  subst mem
  exact absurd id (by decide)

end Prpc.ServiceInfo
