import Prpc.MasterClient.Nodes
import Prpc.MasterClient.Service.Model

/-!
What the directories of services and of generators look like, and how each request of the protocol
changes them. Paths are handled by their segments below the root.
-/

namespace Prpc.MasterClient
open Lib Master

variable {root : RootPath} {m m' : State} {assigned : List Assignment} {api name key : Text}

theorem join_apiPath (root : RootPath) (api : Text) : root.join (apiPath api) = root.node [pathRpc, api] :=
  join_child root pathRpc api

theorem join_servicePath (root : RootPath) (api name : Text) :
    root.join (servicePath api name) = root.node [pathRpc, api, name] := by
  rw [servicePath, join_child, join_apiPath, child_node]
  rfl

theorem join_serverPath (root : RootPath) (api name : Text) (serverId : Int) :
    root.join (serverPath api name serverId) = root.node [pathRpc, api, name, toText serverId] := by
  rw [serverPath, join_child, join_servicePath, child_node]
  rfl

theorem join_generatorPath (root : RootPath) (key : Text) :
    root.join (generatorPath key) = root.node [pathGenerateId, key] :=
  join_child root pathGenerateId key

theorem pathGenerateId_ne_pathRpc : pathGenerateId ≠ pathRpc := by decide

theorem segment_rpcKey (ha : Segment api) (hn : Segment name) : Segment (rpcKey api name) := by
  refine ⟨by simp [rpcKey], ?_⟩
  simp [rpcKey, ha.noSlash, hn.noSlash]

structure Registry (root : RootPath) (m : State) (assigned : List Assignment) : Prop where
  tree : Tree m
  rpcDir : Persistent m (root.node [pathRpc])
  generateDir : Persistent m (root.node [pathGenerateId])
  api : ∀ api, Segment api → ∀ o v, info m (root.node [pathRpc, api]) = some (o, v) → o = none
  service : ∀ api name, Segment api → Segment name → ∀ o v,
    info m (root.node [pathRpc, api, name]) = some (o, v) →
      o = none ∧ ∃ id, v = toText id ∧ ⟨api, name, id⟩ ∈ assigned
  counts : ∀ api, Segment api → ∃ g, Counts m (root.node [pathGenerateId, api]) g ∧
    ∀ a ∈ assigned, a.api = api → ∃ i : Nat, i < g ∧ a.rpcId = i
  distinct : assigned.Pairwise fun a b => a.api = b.api → a.rpcId ≠ b.rpcId

theorem plain_rpc : Plain [pathRpc] := by
  simp [Plain, segment_pathRpc]

theorem plain_generateId : Plain [pathGenerateId] := by
  simp [Plain, segment_pathGenerateId]

theorem plain_api (ha : Segment api) : Plain [pathRpc, api] := by
  simp [Plain, segment_pathRpc, ha]

theorem plain_service (ha : Segment api) (hn : Segment name) : Plain [pathRpc, api, name] := by
  simp [Plain, segment_pathRpc, ha, hn]

theorem plain_server (ha : Segment api) (hn : Segment name) (serverId : Int) :
    Plain [pathRpc, api, name, toText serverId] := by
  simp [Plain, segment_pathRpc, ha, hn, segment_toText]

theorem plain_generator (hk : Segment key) : Plain [pathGenerateId, key] := by
  simp [Plain, segment_pathGenerateId, hk]

theorem Registry.put {l : List Text} {node : Option (Option ClientId × Text)}
    (reg : Registry root m assigned) (plain : Plain l) (deep : 2 ≤ l.length)
    (puts : Puts m m' (root.node l) node)
    (gens : ∀ key, Segment key →
      m'.gen (root.node [pathGenerateId, key]) = m.gen (root.node [pathGenerateId, key]))
    (isApi : ∀ api, l = [pathRpc, api] → ∀ o v, node = some (o, v) → o = none)
    (isService : ∀ api name, l = [pathRpc, api, name] → ∀ o v, node = some (o, v) →
      o = none ∧ ∃ id, v = toText id ∧ ⟨api, name, id⟩ ∈ assigned) :
    Registry root m' assigned where
  tree := puts.tree
  rpcDir := by
    refine puts.persistent ?_ reg.rpcDir
    rw [ne_eq, node_inj plain_rpc plain]
    rintro rfl
    simp at deep
  generateDir := by
    refine puts.persistent ?_ reg.generateDir
    rw [ne_eq, node_inj plain_generateId plain]
    rintro rfl
    simp at deep
  api a ha o v h := by
    rw [puts.nodes] at h
    split at h
    · rename_i eq
      exact isApi a ((node_inj (plain_api ha) plain).1 eq).symm o v h
    · exact reg.api a ha o v h
  service a n ha hn o v h := by
    rw [puts.nodes] at h
    split at h
    · rename_i eq
      exact isService a n ((node_inj (plain_service ha hn) plain).1 eq).symm o v h
    · exact reg.service a n ha hn o v h
  counts a ha := by
    obtain ⟨g, counts, ids⟩ := reg.counts a ha
    exact ⟨g, ⟨(gens a ha).trans counts.gen, counts.le⟩, ids⟩
  distinct := reg.distinct

def KeepsNodes (root : RootPath) (m m' : State) : Prop :=
  ∀ l, Plain l → (l.head? = some pathRpc ∨ l = [pathGenerateId]) →
    info m' (root.node l) = info m (root.node l)

section
variable (reg : Registry root m assigned)
include reg

theorem Registry.keeps {assigned' : List Assignment}
    (tree : Tree m') (nodes : KeepsNodes root m m') (grows : assigned ⊆ assigned')
    (counts : ∀ api, Segment api → ∃ g, Counts m' (root.node [pathGenerateId, api]) g ∧
      ∀ a ∈ assigned', a.api = api → ∃ i : Nat, i < g ∧ a.rpcId = i)
    (distinct : assigned'.Pairwise fun a b => a.api = b.api → a.rpcId ≠ b.rpcId) :
    Registry root m' assigned' where
  tree := tree
  rpcDir := by
    rw [Persistent, nodes _ plain_rpc (.inl rfl)]
    exact reg.rpcDir
  generateDir := by
    rw [Persistent, nodes _ plain_generateId (.inr rfl)]
    exact reg.generateDir
  api a ha o v h := by
    rw [nodes _ (plain_api ha) (.inl rfl)] at h
    exact reg.api a ha o v h
  service a n ha hn o v h := by
    rw [nodes _ (plain_service ha hn) (.inl rfl)] at h
    obtain ⟨persistent, id, eq, mem⟩ := reg.service a n ha hn o v h
    exact ⟨persistent, id, eq, grows mem⟩
  counts := counts
  distinct := distinct

theorem Registry.same (tree : Tree m')
    (nodes : KeepsNodes root m m') (gens : ∀ key, Segment key →
      m'.gen (root.node [pathGenerateId, key]) = m.gen (root.node [pathGenerateId, key])) :
    Registry root m' assigned := by
  refine reg.keeps tree nodes (fun _ mem => mem) (fun a ha => ?_) reg.distinct
  obtain ⟨g, counts, ids⟩ := reg.counts a ha
  exact ⟨g, ⟨(gens a ha).trans counts.gen, counts.le⟩, ids⟩

theorem Registry.counted (hk : Segment key)
    (room : 0 ≤ m.gen (root.node [pathGenerateId, key])) :
    ∃ g : Nat, g < 2 ^ 31 ∧ m.gen (root.node [pathGenerateId, key]) = g ∧
      ∀ a ∈ assigned, a.api = key → ∃ i : Nat, i < g ∧ a.rpcId = i := by
  obtain ⟨g, counts, ids⟩ := reg.counts key hk
  rw [counts.gen] at room ⊢
  have small := nonneg_int32 counts.le room
  exact ⟨g, small, int32_of_lt small, ids⟩

theorem Registry.bump {assigned' : List Assignment}
    (hk : Segment key) (room : 0 ≤ m.gen (root.node [pathGenerateId, key])) (tree : Tree m')
    (nodes : KeepsNodes root m m')
    (gens : ∀ q, m'.gen q = if q = root.node [pathGenerateId, key]
      then int32 (m.gen (root.node [pathGenerateId, key]) + 1) else m.gen q)
    (grows : assigned ⊆ assigned')
    (new : ∀ a ∈ assigned', a ∈ assigned ∨ a.api = key ∧ a.rpcId = m.gen (root.node [pathGenerateId, key]))
    (distinct : assigned'.Pairwise fun a b => a.api = b.api → a.rpcId ≠ b.rpcId) :
    Registry root m' assigned' := by
  refine reg.keeps tree nodes grows (fun a ha => ?_) distinct
  obtain ⟨g, small, gen, ids⟩ := reg.counted hk room
  by_cases eq : a = key
  · subst eq
    refine ⟨g + 1, ⟨by rw [gens, if_pos rfl, gen]; rfl, by omega⟩, fun b mem api => ?_⟩
    rcases new b mem with old | ⟨-, id⟩
    · obtain ⟨i, lt, eq⟩ := ids b old api
      exact ⟨i, by omega, eq⟩
    · exact ⟨g, by omega, id.trans gen⟩
  · obtain ⟨g', counts, ids'⟩ := reg.counts a ha
    have ne : root.node [pathGenerateId, a] ≠ root.node [pathGenerateId, key] := by
      rw [ne_eq, node_inj (plain_generator ha) (plain_generator hk)]
      simpa using eq
    refine ⟨g', ⟨by rw [gens, if_neg ne, counts.gen], counts.le⟩, fun b mem api => ?_⟩
    rcases new b mem with old | ⟨other, -⟩
    · exact ids' b old api
    · exact absurd (api.symm.trans other) eq

end

theorem Skipped.keepsNodes {p : Text} (skipped : Skipped m m' p) : KeepsNodes root m m' :=
  fun l _ _ => skipped.nodes (root.node l)

theorem Generated.keepsNodes (hk : Segment key) {node : Option ClientId × Text}
    (generated : Generated m m' (root.node [pathGenerateId, key]) node) : KeepsNodes root m m' := by
  intro l plain kept
  refine generated.of_ne ?_
  have plain' : Plain [pathGenerateId, key, genKey (m.gen (root.node [pathGenerateId, key]))] := by
    simp [Plain, segment_pathGenerateId, hk, segment_genKey]
  rw [child_node, List.cons_append, List.cons_append, List.nil_append, ne_eq, node_inj plain plain']
  rintro rfl
  rcases kept with head | short
  · exact pathGenerateId_ne_pathRpc (Option.some.inj head)
  · simp at short

theorem Registry.generate {gen : Option Text} {node : Option ClientId × Text}
    (reg : Registry root m assigned) (hk : Segment key)
    (room : 0 ≤ m.gen (root.node [pathGenerateId, key]))
    (made : (gen = none ∨ gen = some []) ∧ Skipped m m' (root.node [pathGenerateId, key]) ∨
      gen = some (genKey (m.gen (root.node [pathGenerateId, key]))) ∧
        Generated m m' (root.node [pathGenerateId, key]) node) :
    Registry root m' assigned ∧ KeepsNodes root m m' := by
  rcases made with ⟨-, skipped⟩ | ⟨-, generated⟩
  · refine ⟨?_, skipped.keepsNodes⟩
    rcases skipped.gen with gens | gens
    · exact reg.same skipped.tree skipped.keepsNodes fun key _ => gens _
    · exact reg.bump hk room skipped.tree skipped.keepsNodes gens (fun _ mem => mem)
        (fun _ mem => .inl mem) reg.distinct
  · exact ⟨reg.bump hk room generated.tree (generated.keepsNodes hk) generated.gen
      (fun _ mem => mem) (fun _ mem => .inl mem) reg.distinct, generated.keepsNodes hk⟩

theorem idOf_genKey {g : Nat} (small : g < 2 ^ 31) : idOf (genKey g) = some (g : Int) := by
  have big : g < 10 ^ 10 := by omega
  have long : 1 < (genKey (g : Int)).length := by
    rw [genKey_length big]
    decide
  rw [idOf, if_pos long, genKey_natCast big, List.drop_one, List.tail_cons]
  exact stoi_lastDigits (w := 10) (by decide) big small

theorem Registry.elsewhere (reg : Registry root m assigned) (tree : Tree m')
    (rpc : SameBelow (root.node [pathRpc]) m m')
    (generateId : SameBelow (root.node [pathGenerateId]) m m') :
    Registry root m' assigned ∧ KeepsNodes root m m' := by
  have nodes : KeepsNodes root m m' := by
    rintro l - (head | rfl)
    · obtain ⟨rest, rfl⟩ := List.head?_eq_some_iff.1 head
      exact info_of_sameBelow rpc (below_node root [pathRpc] rest)
    · exact info_of_sameBelow generateId (.refl _)
  exact ⟨reg.same tree nodes fun key _ =>
    (generateId _ (below_node root [pathGenerateId] [key])).2, nodes⟩

theorem Registry.disconnect {c : ClientId} {temp : List Text}
    {notified : List (ClientId × Text)} (reg : Registry root m assigned)
    (collects : Collects m c temp) (clear : disconnectClearData m temp = some (m', notified)) :
    Registry root m' assigned := by
  obtain ⟨gens, nodes⟩ := info_disconnected reg.tree collects clear
  have kept : ∀ p, Persistent m p → Persistent m' p := by
    rintro p ⟨v, hv⟩
    exact ⟨v, by rw [nodes, hv]; rfl⟩
  have old : ∀ {p o v}, info m' p = some (o, v) → info m p = some (o, v) := by
    intro p o v h
    rw [nodes, Option.filter_eq_some_iff] at h
    exact h.1
  refine ⟨reg.tree.disconnected collects clear, kept _ reg.rpcDir, kept _ reg.generateDir,
    fun a ha o v h => reg.api a ha o v (old h), fun a n ha hn o v h => reg.service a n ha hn o v (old h),
    fun a ha => ?_, reg.distinct⟩
  obtain ⟨g, counts, ids⟩ := reg.counts a ha
  exact ⟨g, ⟨(gens _).trans counts.gen, counts.le⟩, ids⟩

end Prpc.MasterClient
