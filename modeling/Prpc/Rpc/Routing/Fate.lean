import Prpc.Rpc.Routing.Balance

/-!
Every request that is pushed has one fate: it has been handed to a dealer, it waits in a cache, it was
removed with a cache, or it was dropped when it came.
-/

namespace Prpc.Routing
open Lib
open Function (update update_self update_of_ne update_eq_self)
open FairQueue (Addresses Balanced SameButCounters Kept)

variable {D : Type} {c c' : Context D} {q : FairQueue D Nat} {rpcId sid : Int} {dealer : D}

namespace Context

def dealers (c : Context D) (rpcId sid : Int) : List D := (c.queue rpcId).dealers sid

def cached (c : Context D) (rpcId sid : Int) : List Nat := (c.queue rpcId).cached sid

def Registered (c : Context D) (rpcId sid : Int) : Prop := sid ∈ (c.queue rpcId).sid2cache

def AllBalanced (c : Context D) : Prop := ∀ rpcId, (c.queue rpcId).Balanced

end Context

def setAt {α : Type} (f : Int → Int → α) (rpcId sid : Int) (a : α) : Int → Int → α :=
  update f rpcId (update (f rpcId) sid a)

theorem setAt_self {α : Type} (f : Int → Int → α) (rpcId sid : Int) (a : α) : setAt f rpcId sid a rpcId sid = a := by
  simp [setAt]

theorem setAt_of_ne {α : Type} {f : Int → Int → α} {rpcId sid r s : Int} {a : α} (other : ¬ (r = rpcId ∧ s = sid)) :
    setAt f rpcId sid a r s = f r s := by
  rcases eq_or_ne r rpcId with rfl | ne
  · have : s ≠ sid := fun same => other ⟨rfl, same⟩
    simp [setAt, update_of_ne this]
  · simp [setAt, update_of_ne ne]

structure Became (c c' : Context D) (rpcId : Int) (q : FairQueue D Nat) : Prop where
  dealers : c'.dealers = update c.dealers rpcId q.dealers
  cached : c'.cached = update c.cached rpcId q.cached
  registered : ∀ s, c'.Registered rpcId s ↔ s ∈ q.sid2cache
  registered_other : ∀ r ≠ rpcId, ∀ s, c'.Registered r s ↔ c.Registered r s
  balanced : c.AllBalanced → q.Balanced → c'.AllBalanced

theorem became {c c' : Context D} (other : ∀ r ≠ rpcId, c'.queue r = c.queue r)
    (dealers : (c'.queue rpcId).dealers = q.dealers) (cached : (c'.queue rpcId).cached = q.cached)
    (registered : ∀ s, s ∈ (c'.queue rpcId).sid2cache ↔ s ∈ q.sid2cache)
    (balanced : q.Balanced → (c'.queue rpcId).Balanced) : Became c c' rpcId q := by
  refine ⟨?_, ?_, registered, fun r ne s => ?_, fun all here r => ?_⟩
  · funext r
    rcases eq_or_ne r rpcId with rfl | ne
    · rw [update_self, ← dealers]
      rfl
    · rw [update_of_ne ne]
      funext s
      rw [Context.dealers, other r ne]
      rfl
  · funext r
    rcases eq_or_ne r rpcId with rfl | ne
    · rw [update_self, ← cached]
      rfl
    · rw [update_of_ne ne]
      funext s
      rw [Context.cached, other r ne]
      rfl
  · rw [Context.Registered, other r ne]
    rfl
  · rcases eq_or_ne r rpcId with rfl | ne
    · exact balanced here
    · rw [other r ne]
      exact all r

theorem queue_of_lookup (found : c.serverBackend.lookup rpcId = some q) : c.queue rpcId = q := by
  rw [Context.queue, Context.obtain_, found]
  rfl

theorem became_store (c : Context D) (rpcId : Int) (q : FairQueue D Nat) : Became c (c.store rpcId q) rpcId q := by
  have here : (c.store rpcId q).queue rpcId = q := queue_of_lookup (Finmap.lookup_insert _)
  refine became (fun r ne => ?_) (by rw [here]) (by rw [here]) (fun s => by rw [here]) (fun balanced => by rwa [here])
  simp [Context.queue, Context.obtain_, Context.store, Finmap.lookup_insert_of_ne _ ne]

theorem became_settle (c : Context D) (rpcId : Int) (q : FairQueue D Nat) :
    Became c (c.settle rpcId q) rpcId q := by
  rw [Context.settle]
  split
  · rename_i empty
    have none_there : ∀ s, q.sid2dealers.lookup s = none ∧ q.sid2cache.lookup s = none := by
      intro s
      refine ⟨Finmap.lookup_eq_none.mpr fun mem => ?_, Finmap.lookup_eq_none.mpr fun mem => ?_⟩
      · rw [← Finmap.mem_keys, empty.1] at mem
        simp at mem
      · rw [← Finmap.mem_keys, empty.2] at mem
        simp at mem
    have here : Context.queue { c with serverBackend := c.serverBackend.erase rpcId } rpcId = .new ⟨0, 0⟩ := by
      simp [Context.queue, Context.obtain_]
    refine became (fun r ne => ?_) ?_ ?_ (fun s => ?_) fun _ => ?_
    · simp [Context.queue, Context.obtain_, Finmap.lookup_erase_ne ne]
    · rw [here]
      funext s
      simp [FairQueue.dealers, FairQueue.new, none_there s]
    · rw [here]
      funext s
      simp [FairQueue.cached, FairQueue.new, none_there s]
    · rw [here, ← Finmap.lookup_isSome, ← Finmap.lookup_isSome, (none_there s).2]
      simp [FairQueue.new]
    · rw [here]
      exact FairQueue.balanced_new _
  · exact became_store c rpcId q

theorem sameButCounters_obtain (c : Context D) (rpcId : Int) (counters : Counters) :
    SameButCounters (c.queue rpcId) (c.obtain_ rpcId counters) := by
  rw [Context.queue, Context.obtain_, Context.obtain_]
  cases c.serverBackend.lookup rpcId <;> exact ⟨rfl, rfl, rfl⟩

structure Untouched (c c' : Context D) : Prop where
  pushed : c'.pushed = c.pushed
  handed : c'.handed = c.handed
  removed : c'.removed = c.removed
  dropped : c'.dropped = c.dropped
  cached : c'.cached = c.cached

structure Flushed (c c' : Context D) (rpcId sid : Int) : Prop where
  pushed : c'.pushed = c.pushed
  dropped : c'.dropped = c.dropped
  cached : c'.cached = setAt c.cached rpcId sid []

inductive Routed (c c' : Context D) (req : Request) : Prop
  | handed (s : Int) (dealer : D) (addressed : Addresses req.sid s) (mem : dealer ∈ c.dealers req.rpcId s)
      (handed : c'.handed = c.handed ++ [(dealer, c.pushed.length)]) (cached : c'.cached = c.cached)
      (dropped : c'.dropped = c.dropped)
  | cached (s : Int) (addressed : Addresses req.sid s) (registered : c.Registered req.rpcId s)
      (nobody : c.dealers req.rpcId s = []) (handed : c'.handed = c.handed)
      (cached : c'.cached = setAt c.cached req.rpcId s (c.cached req.rpcId s ++ [c.pushed.length]))
      (dropped : c'.dropped = c.dropped)
  | dropped
      (nobody : c.serverBackend.lookup req.rpcId = none ∨
        ∀ s, Addresses req.sid s → c.dealers req.rpcId s = [] ∧ ¬ c.Registered req.rpcId s)
      (handed : c'.handed = c.handed) (cached : c'.cached = c.cached)
      (dropped : c'.dropped = c.dropped ++ [c.pushed.length])

def Effect (c c' : Context D) : Op D → Prop
  | .endAddServer _ _ _ => Untouched c c'
  | .removeServer rpcId sid =>
    Flushed c c' rpcId sid ∧ c'.handed = c.handed ∧ c'.removed = c.removed ++ c.cached rpcId sid
  | .addServerDealer rpcId sid dealer _ =>
    Flushed c c' rpcId sid ∧ c'.handed = c.handed ++ (c.cached rpcId sid).map (dealer, ·) ∧
    c'.removed = c.removed ∧ dealer ∈ c'.dealers rpcId sid
  | .removeServerDealer _ _ _ => Untouched c c'
  | .pushRequest req _ => Routed c c' req ∧ c'.pushed = c.pushed ++ [req] ∧ c'.removed = c.removed

theorem Became.cached_same (became : Became c c' rpcId q) (same : q.cached = (c.queue rpcId).cached) :
    c'.cached = c.cached := by
  rw [became.cached, same]
  exact update_eq_self rpcId c.cached

theorem Became.cached_setAt (became : Became c c' rpcId q) {l : List Nat}
    (changed : q.cached = update (c.queue rpcId).cached sid l) : c'.cached = setAt c.cached rpcId sid l := by
  rw [became.cached, changed]
  rfl

theorem endAddServer_spec {counters : Counters} (all : c.AllBalanced)
    (eq : c.endAddServer rpcId sid counters = some c') : Untouched c c' ∧ c'.AllBalanced := by
  obtain ⟨q, added, rfl⟩ := Option.map_eq_some_iff.mp eq
  obtain ⟨-, -, cached, -, balanced⟩ := FairQueue.addServer_spec added
  have same := sameButCounters_obtain c rpcId counters
  have became := became_store c rpcId q
  exact ⟨⟨rfl, rfl, rfl, rfl, became.cached_same (cached.trans same.cached_eq)⟩,
    became.balanced all (balanced (same.balanced (all rpcId)))⟩

theorem settle_logs (c : Context D) (rpcId : Int) (q : FairQueue D Nat) :
    (c.settle rpcId q).pushed = c.pushed ∧ (c.settle rpcId q).handed = c.handed ∧
    (c.settle rpcId q).removed = c.removed ∧ (c.settle rpcId q).dropped = c.dropped := by
  rw [Context.settle]
  split <;> exact ⟨rfl, rfl, rfl, rfl⟩

theorem removeServer_spec (all : c.AllBalanced) (eq : c.removeServer rpcId sid = some c') :
    Effect c c' (.removeServer rpcId sid) ∧ c'.AllBalanced := by
  obtain ⟨q, found, eq⟩ := Option.bind_eq_some_iff.mp eq
  obtain ⟨⟨q', gone⟩, removed, rfl⟩ := Option.map_eq_some_iff.mp eq
  have here := queue_of_lookup found
  obtain ⟨-, gone_eq, -, cached, -, balanced⟩ := FairQueue.removeServer_spec removed
  have became := became_settle { c with removed := c.removed ++ gone } rpcId q'
  obtain ⟨pushed, handed, removed', dropped⟩ := settle_logs { c with removed := c.removed ++ gone } rpcId q'
  refine ⟨⟨⟨pushed, dropped, ?_⟩, handed, ?_⟩, became.balanced all (balanced (here ▸ all rpcId))⟩
  · exact became.cached_setAt (by rw [cached, ← here]; rfl)
  · rw [removed', gone_eq, ← here]
    rfl

theorem addServerDealer_spec {counters : Counters} (all : c.AllBalanced)
    (new : dealer ∉ (c.queue rpcId).dealers sid) :
    Effect c (c.addServerDealer rpcId sid dealer counters) (.addServerDealer rpcId sid dealer counters) ∧
    (c.addServerDealer rpcId sid dealer counters).AllBalanced := by
  have same := sameButCounters_obtain c rpcId counters
  have balanced := same.balanced (all rpcId)
  obtain ⟨given, dealers, cached, -⟩ := FairQueue.addServerDealer_spec (c.obtain_ rpcId counters) sid dealer
  rw [same.cached_eq] at given cached
  let r := (c.obtain_ rpcId counters).addServerDealer sid dealer
  have became := became_store { c with handed := c.handed ++ r.2.map (dealer, ·) } rpcId r.1
  refine ⟨⟨⟨rfl, rfl, became.cached_setAt cached⟩, ?_, rfl, ?_⟩,
    became.balanced all (balanced.addServerDealer (by rwa [same.dealers_eq]))⟩
  · change c.handed ++ r.2.map (dealer, ·) = _
    rw [show r.2 = c.cached rpcId sid from given]
  · rw [Context.addServerDealer, became.dealers, update_self, dealers, update_self]
    simp

theorem removeServerDealer_spec [DecidableEq D] (all : c.AllBalanced) (mem : dealer ∈ (c.queue rpcId).dealers sid)
    (eq : c.removeServerDealer rpcId sid dealer = some c') : Untouched c c' ∧ c'.AllBalanced := by
  obtain ⟨q, found, eq⟩ := Option.bind_eq_some_iff.mp eq
  obtain ⟨q', removed, rfl⟩ := Option.map_eq_some_iff.mp eq
  have here := queue_of_lookup found
  rw [here] at mem
  obtain ⟨-, cached, -⟩ := FairQueue.removeServerDealer_spec removed
  have became := became_settle c rpcId q'
  obtain ⟨pushed, handed, removed', dropped⟩ := settle_logs c rpcId q'
  refine ⟨⟨pushed, handed, removed', dropped, became.cached_same (by rw [cached, here])⟩, became.balanced all ?_⟩
  exact FairQueue.Balanced.removeServerDealer (here ▸ all rpcId) mem removed

theorem pushRequest_spec {req : Request} {first : Int} (all : c.AllBalanced)
    (begins : (c.queue req.rpcId).sid2cache.keys = ∅ ∨ first ∈ (c.queue req.rpcId).sid2cache) :
    ∃ c', c.pushRequest req first = some c' ∧ Routed c c' req ∧ c'.pushed = c.pushed ++ [req] ∧
    c'.removed = c.removed ∧ c'.AllBalanced := by
  rw [Context.pushRequest]
  cases found : c.serverBackend.lookup req.rpcId with
  | none => exact ⟨_, rfl, .dropped (.inl found) rfl rfl rfl, rfl, rfl, all⟩
  | some q =>
    have here := queue_of_lookup found
    have balanced : q.Balanced := here ▸ all req.rpcId
    rw [here] at begins
    obtain ⟨r, q₁, found₁, same, some_found, none_found⟩ := balanced.next_spec req.sid
    simp only [Context.route, found₁]
    cases r with
    | some d =>
      obtain ⟨s, addressed, mem⟩ := some_found d rfl
      have became := became_store (Context.hand { c with pushed := c.pushed ++ [req] } d c.pushed.length)
        req.rpcId q₁
      refine ⟨_, rfl, .handed s d addressed ?_ rfl (became.cached_same ?_) rfl, rfl, rfl,
        became.balanced all (same.balanced balanced)⟩
      · rw [Context.dealers, here]
        exact mem
      · rw [same.cached_eq, ← here]
        rfl
    | none =>
      have nobody := none_found rfl
      obtain ⟨p, q₂, pushed, kept⟩ := (same.balanced balanced).pushRequest_spec
        c.pushed.length req.sid (by rw [same.dealers_eq]; exact nobody) (by rw [same.sid2cache]; exact begins)
      simp only [pushed, Option.map_some]
      cases kept with
      | cached s addressed registered dealers cached registered_iff balanced₂ =>
        have became := became_store { c with pushed := c.pushed ++ [req] } req.rpcId q₂
        refine ⟨_, rfl, .cached s addressed ?_ ?_ rfl (became.cached_setAt ?_) rfl, rfl, rfl,
          became.balanced all balanced₂⟩
        · rw [Context.Registered, here, ← same.sid2cache]
          exact registered
        · rw [Context.dealers, here]
          exact nobody s addressed
        · rw [cached, same.cached_eq, ← here]
          rfl
      | refused absent =>
        have became := became_store { c with
          pushed := c.pushed ++ [req], dropped := c.dropped ++ [c.pushed.length] } req.rpcId q₁
        refine ⟨_, rfl, .dropped (.inr fun s addressed => ⟨?_, ?_⟩) rfl (became.cached_same ?_) rfl, rfl, rfl,
          became.balanced all (same.balanced balanced)⟩
        · rw [Context.dealers, here]
          exact nobody s addressed
        · rw [Context.Registered, here, ← same.sid2cache]
          exact absent s addressed
        · rw [same.cached_eq, ← here]
          rfl

theorem apply_effect [DecidableEq D] {op : Op D} (all : c.AllBalanced) (legal : c.Legal op)
    (applied : apply c op = some c') : Effect c c' op ∧ c'.AllBalanced := by
  cases op with
  | endAddServer rpcId sid counters => exact endAddServer_spec all applied
  | removeServer rpcId sid => exact removeServer_spec all applied
  | addServerDealer rpcId sid dealer counters =>
    cases applied
    exact addServerDealer_spec all legal
  | removeServerDealer rpcId sid dealer => exact removeServerDealer_spec all legal applied
  | pushRequest req first =>
    obtain ⟨c₁, pushed, routed, pushed_eq, removed_eq, balanced⟩ := pushRequest_spec all legal
    rw [apply, pushed] at applied
    cases applied
    exact ⟨⟨routed, pushed_eq, removed_eq⟩, balanced⟩

inductive Fate (D : Type)
  | handed (dealer : D)
  | waiting (rpcId sid : Int)
  | removed
  | dropped

/-- The fate of every request that has been pushed. The lists have each request once, and in a cache the
requests wait in the order in which they came. -/
structure Accounted (c : Context D) (fate : Nat → Option (Fate D)) : Prop where
  known : ∀ n, fate n = none ↔ c.pushed.length ≤ n
  handed : ∀ n d, (d, n) ∈ c.handed ↔ fate n = some (.handed d)
  handed_once : (c.handed.map Prod.snd).Nodup
  waiting : ∀ r s n, n ∈ c.cached r s ↔ fate n = some (.waiting r s)
  in_order : ∀ r s, (c.cached r s).Pairwise (· < ·)
  removed : ∀ n, n ∈ c.removed ↔ fate n = some .removed
  removed_once : c.removed.Nodup
  dropped : ∀ n, n ∈ c.dropped ↔ fate n = some .dropped
  dropped_once : c.dropped.Nodup
  addressed : ∀ r s, ∀ n ∈ c.cached r s, ∃ req, c.pushed[n]? = some req ∧ req.rpcId = r ∧ Addresses req.sid s

variable {fate : Nat → Option (Fate D)}

theorem accounted_initial : Accounted (.initial : Context D) fun _ => none := by
  have nothing : ∀ r s, Context.cached (.initial : Context D) r s = [] := fun _ _ => rfl
  refine ⟨fun n => ?_, fun n d => ?_, List.nodup_nil, fun r s n => ?_, fun r s => ?_, fun n => ?_, List.nodup_nil,
    fun n => ?_, List.nodup_nil, fun r s n waits => ?_⟩
  · simp [Context.initial]
  · simp [Context.initial]
  · simp [nothing]
  · simp [nothing]
  · simp [Context.initial]
  · simp [Context.initial]
  · rw [nothing] at waits
    cases waits

theorem Untouched.accounted (untouched : Untouched c c') (accounted : Accounted c fate) : Accounted c' fate := by
  obtain ⟨pushed, handed, removed, dropped, cached⟩ := untouched
  refine ⟨?_, ?_, ?_, ?_, ?_, ?_, ?_, ?_, ?_, ?_⟩
  · rw [pushed]
    exact accounted.known
  · rw [handed]
    exact accounted.handed
  · rw [handed]
    exact accounted.handed_once
  · rw [cached]
    exact accounted.waiting
  · rw [cached]
    exact accounted.in_order
  · rw [removed]
    exact accounted.removed
  · rw [removed]
    exact accounted.removed_once
  · rw [dropped]
    exact accounted.dropped
  · rw [dropped]
    exact accounted.dropped_once
  · rw [cached, pushed]
    exact accounted.addressed

def flush (c : Context D) (rpcId sid : Int) (new : Fate D) (fate : Nat → Option (Fate D)) (n : Nat) :
    Option (Fate D) :=
  if n ∈ c.cached rpcId sid then some new else fate n

theorem Accounted.flush_other (accounted : Accounted c fate) {new f : Fate D} (ne : f ≠ new)
    (here : f ≠ .waiting rpcId sid) (n : Nat) : flush c rpcId sid new fate n = some f ↔ fate n = some f := by
  rw [flush]
  split
  · rename_i waits
    rw [(accounted.waiting _ _ _).mp waits]
    simp [ne.symm, here.symm]
  · rfl

theorem flush_new (c : Context D) (rpcId sid : Int) (new : Fate D) (fate : Nat → Option (Fate D)) (n : Nat) :
    flush c rpcId sid new fate n = some new ↔ n ∈ c.cached rpcId sid ∨ fate n = some new := by
  rw [flush]
  split
  · simp [*]
  · simp [*]

section
variable (accounted : Accounted c fate)
include accounted

theorem Accounted.cached_nodup (r s : Int) : (c.cached r s).Nodup :=
  (accounted.in_order r s).imp fun lt => Nat.ne_of_lt lt

theorem Accounted.flush_cached (new : Fate D) (flushed : Flushed c c' rpcId sid)
    (moved : ∀ r s, new ≠ .waiting r s) :
    (∀ n, flush c rpcId sid new fate n = none ↔ c'.pushed.length ≤ n) ∧
    (∀ r s n, n ∈ c'.cached r s ↔ flush c rpcId sid new fate n = some (.waiting r s)) ∧
    (∀ r s, (c'.cached r s).Pairwise (· < ·)) ∧
    ∀ r s, ∀ n ∈ c'.cached r s, ∃ req, c'.pushed[n]? = some req ∧ req.rpcId = r ∧ Addresses req.sid s := by
  rw [flushed.pushed, flushed.cached]
  refine ⟨fun n => ?_, fun r s n => ?_, fun r s => ?_, fun r s n waits => ?_⟩
  · rw [flush, ← accounted.known]
    split
    · rename_i waits
      rw [(accounted.waiting _ _ _).mp waits]
      simp
    · rfl
  · by_cases here : r = rpcId ∧ s = sid
    · obtain ⟨rfl, rfl⟩ := here
      rw [setAt_self, flush]
      split
      · simp [moved]
      · rename_i not_here
        rw [← accounted.waiting]
        simp [not_here]
    · rw [setAt_of_ne here, accounted.waiting, accounted.flush_other (moved r s).symm]
      rintro ⟨⟩
      exact here ⟨rfl, rfl⟩
  · by_cases here : r = rpcId ∧ s = sid
    · obtain ⟨rfl, rfl⟩ := here
      rw [setAt_self]
      exact .nil
    · rw [setAt_of_ne here]
      exact accounted.in_order r s
  · by_cases here : r = rpcId ∧ s = sid
    · obtain ⟨rfl, rfl⟩ := here
      rw [setAt_self] at waits
      cases waits
    · rw [setAt_of_ne here] at waits
      exact accounted.addressed r s n waits

theorem Accounted.removeServer (effect : Effect c c' (.removeServer rpcId sid)) :
    Accounted c' (flush c rpcId sid .removed fate) := by
  obtain ⟨flushed, handed, removed⟩ := effect
  obtain ⟨known, waiting, in_order, addressed⟩ :=
    accounted.flush_cached .removed flushed (fun _ _ eq => by cases eq)
  refine ⟨known, fun n d => ?_, ?_, waiting, in_order, fun n => ?_, ?_, fun n => ?_, ?_, addressed⟩
  · rw [handed, accounted.handed, accounted.flush_other (by simp) (by simp)]
  · rw [handed]
    exact accounted.handed_once
  · rw [removed, List.mem_append, accounted.removed, flush_new, or_comm]
  · rw [removed, List.nodup_append]
    refine ⟨accounted.removed_once, accounted.cached_nodup _ _, fun a gone b waits same => ?_⟩
    rw [accounted.removed] at gone
    rw [accounted.waiting] at waits
    rw [same, waits] at gone
    cases gone
  · rw [flushed.dropped, accounted.dropped, accounted.flush_other (by simp) (by simp)]
  · rw [flushed.dropped]
    exact accounted.dropped_once

theorem Accounted.addServerDealer {counters : Counters}
    (effect : Effect c c' (.addServerDealer rpcId sid dealer counters)) :
    Accounted c' (flush c rpcId sid (.handed dealer) fate) := by
  obtain ⟨flushed, handed, removed, -⟩ := effect
  obtain ⟨known, waiting, in_order, addressed⟩ :=
    accounted.flush_cached (.handed dealer) flushed (fun _ _ eq => by cases eq)
  refine ⟨known, fun n d => ?_, ?_, waiting, in_order, fun n => ?_, ?_, fun n => ?_, ?_, addressed⟩
  · rw [handed, List.mem_append, accounted.handed]
    by_cases same : d = dealer
    · subst same
      rw [flush_new, or_comm]
      simp
    · rw [accounted.flush_other (by simpa using same) (by simp)]
      simp [Ne.symm same]
  · rw [handed, List.map_append, List.map_map, List.nodup_append]
    refine ⟨accounted.handed_once, by simpa using accounted.cached_nodup _ _, fun a before b waits same => ?_⟩
    obtain ⟨⟨d, n⟩, given, rfl⟩ := List.mem_map.mp before
    rw [accounted.handed] at given
    have waits : b ∈ c.cached rpcId sid := by simpa using waits
    rw [accounted.waiting, ← same, given] at waits
    cases waits
  · rw [removed, accounted.removed, accounted.flush_other (by simp) (by simp)]
  · rw [removed]
    exact accounted.removed_once
  · rw [flushed.dropped, accounted.dropped, accounted.flush_other (by simp) (by simp)]
  · rw [flushed.dropped]
    exact accounted.dropped_once

theorem Accounted.fresh : fate c.pushed.length = none := (accounted.known _).mpr (Nat.le_refl _)

theorem Accounted.update_other {new f : Fate D} (ne : f ≠ new) (n : Nat) :
    update fate c.pushed.length (some new) n = some f ↔ fate n = some f := by
  rcases eq_or_ne n c.pushed.length with rfl | other
  · rw [update_self, accounted.fresh]
    simp [ne.symm]
  · rw [update_of_ne other]

end

theorem update_new (fate : Nat → Option (Fate D)) (k : Nat) (new : Fate D) (n : Nat) :
    update fate k (some new) n = some new ↔ fate n = some new ∨ n = k := by
  rcases eq_or_ne n k with rfl | other
  · simp
  · simp [other]

section
variable (accounted : Accounted c fate)
include accounted

theorem Accounted.lt_of_known {n : Nat} {f : Fate D} (eq : fate n = some f) : n < c.pushed.length := by
  by_contra ge
  rw [(accounted.known n).mpr (Nat.le_of_not_lt ge)] at eq
  cases eq

theorem Accounted.push_known (req : Request) (new : Fate D) (n : Nat) :
    update fate c.pushed.length (some new) n = none ↔ (c.pushed ++ [req]).length ≤ n := by
  rw [List.length_append, List.length_singleton]
  rcases eq_or_ne n c.pushed.length with rfl | other
  · simp
  · rw [update_of_ne other, accounted.known]
    omega

theorem Accounted.push_addressed (req : Request) (r s : Int) (n : Nat)
    (waits : n ∈ c.cached r s) :
    ∃ req', (c.pushed ++ [req])[n]? = some req' ∧ req'.rpcId = r ∧ Addresses req'.sid s := by
  obtain ⟨req', at_, eq⟩ := accounted.addressed r s n waits
  have lt := accounted.lt_of_known ((accounted.waiting r s n).mp waits)
  exact ⟨req', by rw [List.getElem?_append_left lt, at_], eq⟩

theorem Accounted.nodup_push {l : List Nat} (nodup : l.Nodup)
    (known : ∀ n ∈ l, fate n ≠ none) : (l ++ [c.pushed.length]).Nodup := by
  rw [← List.concat_eq_append]
  exact nodup.concat fun there => known _ there accounted.fresh

theorem Accounted.pushRequest {req : Request} (routed : Routed c c' req)
    (pushed : c'.pushed = c.pushed ++ [req]) (removed : c'.removed = c.removed) : ∃ fate', Accounted c' fate' := by
  cases routed with
  | handed s dealer addressed mem handed cached dropped =>
    refine ⟨update fate c.pushed.length (some (.handed dealer)), ?_, fun n d => ?_, ?_, fun r s n => ?_,
      ?_, fun n => ?_, ?_, fun n => ?_, ?_, ?_⟩
    · rw [pushed]
      exact accounted.push_known req _
    · rw [handed, List.mem_append, accounted.handed]
      by_cases same : d = dealer
      · subst same
        rw [update_new]
        simp
      · rw [accounted.update_other (by simpa using same)]
        simp [same]
    · rw [handed, List.map_append]
      refine accounted.nodup_push accounted.handed_once fun n there => ?_
      obtain ⟨⟨d, n⟩, given, rfl⟩ := List.mem_map.mp there
      rw [(accounted.handed n d).mp given]
      simp
    · rw [cached, accounted.waiting, accounted.update_other (by simp)]
    · rw [cached]
      exact accounted.in_order
    · rw [removed, accounted.removed, accounted.update_other (by simp)]
    · rw [removed]
      exact accounted.removed_once
    · rw [dropped, accounted.dropped, accounted.update_other (by simp)]
    · rw [dropped]
      exact accounted.dropped_once
    · rw [cached, pushed]
      exact accounted.push_addressed req
  | cached s addressed registered nobody handed cached dropped =>
    refine ⟨update fate c.pushed.length (some (.waiting req.rpcId s)), ?_, fun n d => ?_, ?_,
      fun r s' n => ?_, fun r s' => ?_, fun n => ?_, ?_, fun n => ?_, ?_, fun r s' n waits => ?_⟩
    · rw [pushed]
      exact accounted.push_known req _
    · rw [handed, accounted.handed, accounted.update_other (by simp)]
    · rw [handed]
      exact accounted.handed_once
    · rw [cached]
      by_cases here : r = req.rpcId ∧ s' = s
      · obtain ⟨rfl, rfl⟩ := here
        rw [setAt_self, update_new, ← accounted.waiting]
        simp
      · rw [setAt_of_ne here, accounted.waiting, accounted.update_other]
        rintro ⟨⟩
        exact here ⟨rfl, rfl⟩
    · rw [cached]
      by_cases here : r = req.rpcId ∧ s' = s
      · obtain ⟨rfl, rfl⟩ := here
        rw [setAt_self, List.pairwise_append]
        refine ⟨accounted.in_order _ _, List.pairwise_singleton _ _, fun n waits k last => ?_⟩
        rw [List.mem_singleton] at last
        rw [last]
        exact accounted.lt_of_known ((accounted.waiting _ _ n).mp waits)
      · rw [setAt_of_ne here]
        exact accounted.in_order r s'
    · rw [removed, accounted.removed, accounted.update_other (by simp)]
    · rw [removed]
      exact accounted.removed_once
    · rw [dropped, accounted.dropped, accounted.update_other (by simp)]
    · rw [dropped]
      exact accounted.dropped_once
    · rw [pushed]
      rw [cached] at waits
      by_cases here : r = req.rpcId ∧ s' = s
      · obtain ⟨rfl, rfl⟩ := here
        rw [setAt_self, List.mem_append, List.mem_singleton] at waits
        rcases waits with before | rfl
        · exact accounted.push_addressed req _ _ n before
        · exact ⟨req, by simp, rfl, addressed⟩
      · rw [setAt_of_ne here] at waits
        exact accounted.push_addressed req r s' n waits
  | dropped nobody handed cached dropped =>
    refine ⟨update fate c.pushed.length (some .dropped), ?_, fun n d => ?_, ?_, fun r s n => ?_,
      ?_, fun n => ?_, ?_, fun n => ?_, ?_, ?_⟩
    · rw [pushed]
      exact accounted.push_known req _
    · rw [handed, accounted.handed, accounted.update_other (by simp)]
    · rw [handed]
      exact accounted.handed_once
    · rw [cached, accounted.waiting, accounted.update_other (by simp)]
    · rw [cached]
      exact accounted.in_order
    · rw [removed, accounted.removed, accounted.update_other (by simp)]
    · rw [removed]
      exact accounted.removed_once
    · rw [dropped, update_new, List.mem_append, List.mem_singleton, accounted.dropped]
    · rw [dropped]
      refine accounted.nodup_push accounted.dropped_once fun n there => ?_
      rw [(accounted.dropped n).mp there]
      simp
    · rw [cached, pushed]
      exact accounted.push_addressed req

theorem Accounted.apply [DecidableEq D] {op : Op D} (effect : Effect c c' op) :
    ∃ fate', Accounted c' fate' := by
  cases op with
  | endAddServer rpcId sid counters => exact ⟨fate, Untouched.accounted effect accounted⟩
  | removeServer rpcId sid => exact ⟨_, accounted.removeServer effect⟩
  | addServerDealer rpcId sid dealer counters => exact ⟨_, accounted.addServerDealer effect⟩
  | removeServerDealer rpcId sid dealer => exact ⟨fate, Untouched.accounted effect accounted⟩
  | pushRequest req first => exact accounted.pushRequest effect.1 effect.2.1 effect.2.2

end

theorem accounted_of_reachable [DecidableEq D] (reachable : ContextReachable c) :
    c.AllBalanced ∧ ∃ fate, Accounted c fate := by
  refine Reachable.invariant (fun c => c.AllBalanced ∧ ∃ fate, Accounted c fate) ?_ ?_ reachable
  · rintro c rfl
    exact ⟨fun _ => FairQueue.balanced_new _, _, accounted_initial⟩
  · rintro c c' ⟨all, fate, accounted⟩ ⟨op, legal, applied⟩
    obtain ⟨effect, all'⟩ := apply_effect all legal applied
    exact ⟨all', accounted.apply effect⟩

/-- After every step, `_sids` has each sid as often as it has dealers and no sid has an empty vector; a
push never fails a check, and the new request goes to a dealer or a cache or is dropped for want of both;
every request has one fate, and what is in a cache is handed over in order when a dealer comes, and is
dropped when the server goes. -/
theorem requests_conserved [DecidableEq D] (reachable : ContextReachable c) :
    (∀ rpcId q, c.serverBackend.lookup rpcId = some q →
      (∀ sid, q.sids.count sid = (q.dealers sid).length) ∧ ∀ sid, q.sid2dealers.lookup sid ≠ some []) ∧
    (∀ req first, c.Legal (.pushRequest req first) → (c.pushRequest req first).isSome) ∧
    (∀ op c', c.Legal op → Routing.apply c op = some c' → Effect c c' op) ∧
    ∃ fate, Accounted c fate := by
  obtain ⟨all, accounted⟩ := accounted_of_reachable reachable
  refine ⟨fun rpcId q found => ?_, fun req first legal => ?_, fun op c' legal applied => ?_, accounted⟩
  · have balanced : q.Balanced := queue_of_lookup found ▸ all rpcId
    exact ⟨balanced.count, balanced.some_dealer⟩
  · obtain ⟨c', pushed, -⟩ := pushRequest_spec all legal
    rw [pushed]
    rfl
  · exact (apply_effect all legal applied).1

theorem requests_conserved_one : ∃ c : Context Nat, ContextReachable c ∧ c.handed = [(9, 0)] ∧
    ∃ fate, Accounted c fate := by
  have start : ContextReachable (.initial : Context Nat) := .initial rfl
  have server := start.next (.op (.endAddServer 1 2 ⟨0, 0⟩) trivial rfl)
  have pushed := server.next (.op (.pushRequest ⟨1, 2⟩ 2) (.inr (by decide)) rfl)
  have dealt := pushed.next (.op (.addServerDealer 1 2 9 ⟨0, 0⟩) (List.not_mem_nil : 9 ∉ []) rfl)
  exact ⟨_, dealt, rfl, (requests_conserved dealt).2.2.2⟩

end Prpc.Routing
