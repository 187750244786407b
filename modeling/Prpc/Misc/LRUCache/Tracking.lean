import Prpc.Misc.LRUCache.Links

/-!
The list has one node for every entry of the map.
-/

namespace Prpc.LRUCache
open Lib
open Function (update update_self update_of_ne)

variable {K V : Type} {P : Config V} {c c' c'' : Cache K V} {a : Nat} {k : K} {l before after : List (Nat × K)}

theorem Listed.same_links {l : List Nat} (listed : Listed c l) (next_ : c'.next = c.next) (prev_ : c'.prev = c.prev)
    (there : ∀ a ∈ l, c'.payload a ≠ none) : Listed c' l := by
  refine ⟨?_, listed.nodup, there⟩
  rw [next_, prev_]
  exact listed.ring

theorem drop_links (next_ : c.next (some a) = none) (prev_ : c.prev (some a) = none) :
    Cache.next { c with heap := c.heap.erase a } = c.next ∧ Cache.prev { c with heap := c.heap.erase a } = c.prev := by
  constructor
  · funext p
    cases p with
    | none => rfl
    | some b =>
      rcases eq_or_ne b a with rfl | other
      · rw [next_]
        simp [Cache.next]
      · simp [Cache.next, other]
  · funext p
    cases p with
    | none => rfl
    | some b =>
      rcases eq_or_ne b a with rfl | other
      · rw [prev_]
        simp [Cache.prev]
      · simp [Cache.prev, other]

theorem write_links {n : Node K} (next_ : n.next = c.next (some a)) (prev_ : n.prev = c.prev (some a)) :
    Cache.next { c with heap := c.heap.insert a n } = c.next ∧ Cache.prev { c with heap := c.heap.insert a n } = c.prev := by
  constructor
  · funext p
    cases p with
    | none => rfl
    | some b =>
      rcases eq_or_ne b a with rfl | other
      · rw [← next_]
        simp [Cache.next]
      · simp [Cache.next, other]
  · funext p
    cases p with
    | none => rfl
    | some b =>
      rcases eq_or_ne b a with rfl | other
      · rw [← prev_]
        simp [Cache.prev]
      · simp [Cache.prev, other]

theorem payload_drop {b : Nat} (other : b ≠ a) : Cache.payload { c with heap := c.heap.erase a } b = c.payload b := by
  simp [Cache.payload, other]

theorem payload_write (n : Node K) : Cache.payload { c with heap := c.heap.insert a n } =
    update c.payload a (some (n.key, n.valueMemoryUsage)) := by
  funext b
  rcases eq_or_ne b a with rfl | other
  · simp [Cache.payload]
  · simp [Cache.payload, other]

variable [DecidableEq K]

structure Tracked (c : Cache K V) (l : List (Nat × K)) : Prop where
  listed : Listed c (l.map Prod.fst)
  key : ∀ s ∈ l, (c.payload s.1).map Prod.fst = some s.2
  entry : ∀ s ∈ l, (c.hashmap.lookup s.2).map Entry.node = some s.1
  node : ∀ k e, c.hashmap.lookup k = some e → (e.node, k) ∈ l

namespace Tracked

theorem empty : Tracked (LRUCache.empty K V) [] where
  listed := ⟨Ring.nil rfl rfl, List.nodup_nil, nofun⟩
  key := nofun
  entry := nofun
  node k e found := by simp [LRUCache.empty] at found

section
variable (tracked : Tracked c l)
include tracked

theorem counters (count memory : Nat) : Tracked { c with itemCount := count, itemMemoryUsage := memory } l :=
  ⟨⟨tracked.listed.ring, tracked.listed.nodup, tracked.listed.there⟩, tracked.key, tracked.entry, tracked.node⟩

theorem unique {s s' : Nat × K} (mem : s ∈ l) (mem' : s' ∈ l) (same : s.2 = s'.2) : s = s' := by
  have first := tracked.entry s mem
  rw [same, tracked.entry s' mem', Option.some.injEq] at first
  exact Prod.ext first.symm same

theorem keys_nodup : (l.map Prod.snd).Nodup :=
  (List.Nodup.of_map _ tracked.listed.nodup).map_on fun _ mem _ mem' same => tracked.unique mem mem' same

theorem mem_keys : k ∈ c.hashmap ↔ k ∈ l.map Prod.snd := by
  constructor
  · intro mem
    obtain ⟨e, found⟩ := Finmap.mem_iff.1 mem
    exact List.mem_map.2 ⟨_, tracked.node k e found, rfl⟩
  · intro mem
    obtain ⟨s, inside, rfl⟩ := List.mem_map.1 mem
    obtain ⟨e, found, -⟩ := Option.map_eq_some_iff.1 (tracked.entry s inside)
    exact Finmap.mem_of_lookup_eq_some found

theorem reorder (kept : Kept c c') {l' : List (Nat × K)} (perm : l'.Perm l)
    (listed : Listed c' (l'.map Prod.fst)) : Tracked c' l' where
  listed := listed
  key s mem := by
    rw [kept.payload]
    exact tracked.key s (perm.mem_iff.1 mem)
  entry s mem := by
    rw [kept.hashmap]
    exact tracked.entry s (perm.mem_iff.1 mem)
  node k e found := by
    rw [kept.hashmap] at found
    exact perm.mem_iff.2 (tracked.node k e found)

end

theorem moveToFront {s : Nat × K} (tracked : Tracked c (before ++ s :: after)) :
    ∃ c₁ c', c.delinkNode s.1 = some c₁ ∧ c₁.pushNodeToFront s.1 = some c' ∧ Kept c c' ∧
      Tracked c' (s :: (before ++ after)) := by
  have listed := tracked.listed
  rw [List.map_append, List.map_cons] at listed
  obtain ⟨c₁, delinked, kept₁, listed₁, loose, -⟩ := listed.delinkNode
  obtain ⟨c', pushed, kept', listed'⟩ := listed₁.pushNodeToFront loose
  rw [← List.map_append, ← List.map_cons] at listed'
  have kept := kept₁.trans kept'
  exact ⟨c₁, c', delinked, pushed, kept, tracked.reorder kept List.perm_middle.symm listed'⟩

theorem touch (tracked : Tracked c l) {e : Entry V} (found : c.hashmap.lookup k = some e) :
    Tracked (c.touch k e) l := by
  have same (k' : K) : ((c.touch k e).hashmap.lookup k').map Entry.node = (c.hashmap.lookup k').map Entry.node := by
    rcases eq_or_ne k' k with rfl | other
    · simp [Cache.touch, Entry.touch, found]
    · simp [Cache.touch, other]
  refine ⟨⟨tracked.listed.ring, tracked.listed.nodup, tracked.listed.there⟩, tracked.key, fun s mem => ?_,
    fun k' e' held => ?_⟩
  · rw [same]
    exact tracked.entry s mem
  · have before := same k'
    rw [held] at before
    obtain ⟨e'', held', node⟩ := Option.map_eq_some_iff.1 before.symm
    rw [← node]
    exact tracked.node k' e'' held'

end Tracked

structure Evicted (c c' : Cache K V) (s : Nat × K) : Prop where
  hashmap : c'.hashmap = c.hashmap.erase s.2
  itemCount : c'.itemCount = minus c.itemCount 1
  memory : ∃ used, c.payload s.1 = some (s.2, used) ∧ c'.itemMemoryUsage = minus c.itemMemoryUsage used
  payload : ∀ b ≠ s.1, c'.payload b = c.payload b

theorem Tracked.evict {s : Nat × K} (tracked : Tracked c (before ++ s :: after)) : ∃ c', c.evict (some s.1) = some c' ∧
    Tracked c' (before ++ after) ∧ Evicted c c' s ∧
    ∀ b, Loose c ((before ++ s :: after).map Prod.fst) b → Loose c' ((before ++ after).map Prod.fst) b := by
  have listed := tracked.listed
  rw [List.map_append, List.map_cons] at listed
  obtain ⟨c₁, delinked, kept, listed₁, loose, others⟩ := listed.delinkNode
  rw [← List.map_append] at listed₁ loose others
  have here : s ∈ before ++ s :: after := List.mem_append_right _ (List.mem_cons_self ..)
  obtain ⟨n, there⟩ := exists_node loose.there
  have payload : c.payload s.1 = some (n.key, n.valueMemoryUsage) := by
    rw [← kept.payload, Cache.payload, there, Option.map_some]
  have key : n.key = s.2 := by
    have held := tracked.key s here
    rw [payload, Option.map_some, Option.some.injEq] at held
    exact held
  rw [key] at payload
  obtain ⟨next_, prev_⟩ := drop_links loose.next loose.prev
  have apart : ∀ s' ∈ before ++ after, s'.2 ≠ s.2 := by
    have nodup := tracked.keys_nodup
    intro s' mem same
    have member : s.2 ∈ (before ++ after).map Prod.snd := same ▸ List.mem_map_of_mem mem
    rw [List.map_append, List.map_cons, List.nodup_middle, List.nodup_cons, ← List.map_append] at nodup
    exact nodup.1 member
  have away : ∀ b ∈ (before ++ after).map Prod.fst, b ≠ s.1 := by
    rintro b mem rfl
    exact loose.out mem
  have inside {s' : Nat × K} (mem : s' ∈ before ++ after) : s' ∈ before ++ s :: after := by grind
  let c' : Cache K V := { c₁ with
    itemCount := minus c₁.itemCount 1
    itemMemoryUsage := minus c₁.itemMemoryUsage n.valueMemoryUsage
    hashmap := c₁.hashmap.erase n.key
    heap := c₁.heap.erase s.1 }
  have payload' : ∀ b ≠ s.1, c'.payload b = c.payload b := fun b other =>
    (payload_drop other).trans (congrFun kept.payload b)
  have hashmap' : c'.hashmap = c.hashmap.erase s.2 := by
    rw [← key, ← kept.hashmap]
  refine ⟨c', ?_, ⟨listed₁.same_links next_ prev_ fun b mem => ?_, fun s' mem => ?_, fun s' mem => ?_,
    fun k e held => ?_⟩, ⟨hashmap', ?_, ⟨n.valueMemoryUsage, payload, ?_⟩, payload'⟩, fun b loose' => ?_⟩
  · simp only [Cache.evict, delinked, there, Option.bind_eq_bind, Option.bind_some, Option.pure_def]
    rfl
  · rw [payload' b (away b mem), ← kept.payload]
    exact listed₁.there b mem
  · rw [payload' s'.1 (away _ (List.mem_map_of_mem mem))]
    exact tracked.key s' (inside mem)
  · rw [hashmap', Finmap.lookup_erase_ne (apart s' mem)]
    exact tracked.entry s' (inside mem)
  · rw [hashmap'] at held
    have other : k ≠ s.2 := by
      rintro rfl
      simp at held
    rw [Finmap.lookup_erase_ne other] at held
    have mem := tracked.node k e held
    simp only [List.mem_append, List.mem_cons] at mem ⊢
    rcases mem with mem | rfl | mem
    · exact .inl mem
    · exact absurd rfl other
    · exact .inr mem
  · rw [← kept.itemCount]
  · rw [← kept.itemMemoryUsage]
  · have other : b ≠ s.1 := by
      rintro rfl
      exact loose'.out (List.mem_map_of_mem here)
    have old := loose'
    rw [List.map_append, List.map_cons] at old
    have loose₁ := others b old
    refine ⟨?_, loose₁.out, (congrFun next_ _).trans loose₁.next, (congrFun prev_ _).trans loose₁.prev⟩
    rw [payload' b other]
    exact loose'.there

theorem Tracked.evictIfNeeded (tracked : Tracked c l) : ∃ c' l', c.evictIfNeeded P = some c' ∧ Tracked c' l' ∧
    (c' = c ∧ l' = l ∧ (c.needToEvict P = true → l = []) ∨
      ∃ s, c.needToEvict P = true ∧ l = l' ++ [s] ∧ Evicted c c' s) ∧
    ∀ b, Loose c (l.map Prod.fst) b → Loose c' (l'.map Prod.fst) b := by
  by_cases needed : c.needToEvict P = true
  · rw [Cache.evictIfNeeded, if_pos needed]
    rcases List.eq_nil_or_concat l with rfl | ⟨init, s, rfl⟩
    · have inTail : c.prev none ∈ [none] := tracked.listed.ring.prev_root_mem
      have noTail : c.tail = none := List.mem_singleton.1 inTail
      rw [noTail]
      exact ⟨c, [], rfl, tracked, .inl ⟨rfl, rfl, fun _ => rfl⟩, fun _ => id⟩
    · rw [List.concat_eq_append] at tracked ⊢
      obtain ⟨nodes, eq⟩ := tracked.listed.ring.last
      have atTail : c.tail = some s.1 := by
        rw [List.map_append, List.map_append, ← List.cons_append] at eq
        exact (List.singleton_inj.1 (List.append_inj' eq rfl).2).symm
      obtain ⟨c', evicted, tracked', gone, others⟩ := tracked.evict
      rw [List.append_nil] at tracked'
      refine ⟨c', init, by rw [atTail]; exact evicted, tracked', .inr ⟨s, needed, rfl, gone⟩, fun b loose => ?_⟩
      have := others b loose
      rwa [List.append_nil] at this
  · exact ⟨c, l, if_neg needed, tracked, .inl ⟨rfl, rfl, fun need => absurd need needed⟩, fun _ => id⟩

def Cache.place (P : Config V) (c : Cache K V) (a : Nat) (key : K) (value : V) (now : Int) : Option (Cache K V) := do
  let node ← c.heap.lookup a
  let c := { c with heap := c.heap.insert a { node with valueMemoryUsage := P.memoryUsage value } }
  let c := c.emplace key ⟨value, a, 0, now⟩
  let c ← c.delinkNode a
  let c ← c.pushNodeToFront a
  let node ← c.heap.lookup a
  return { c with
    itemCount := plus c.itemCount 1
    itemMemoryUsage := plus c.itemMemoryUsage node.valueMemoryUsage }

theorem insert_eq (P : Config V) (c : Cache K V) (key : K) (value : V) (address : Nat) (now : Int) :
    c.insert P key value address now = (c.nodeOf key address).bind fun x =>
      (x.2.evictIfNeeded P).bind fun c => (c.place P x.1 key value now).bind fun c => c.evictIfNeeded P := by
  simp [Cache.insert, Cache.place, Option.bind_assoc]

structure Placed (P : Config V) (c c' : Cache K V) (a : Nat) (k : K) (v : V) (now : Int) : Prop where
  hashmap : c'.hashmap = (c.emplace k ⟨v, a, 0, now⟩).hashmap
  itemCount : c'.itemCount = plus c.itemCount 1
  itemMemoryUsage : c'.itemMemoryUsage = plus c.itemMemoryUsage (P.memoryUsage v)
  payload : c'.payload = update c.payload a (some (k, P.memoryUsage v))

def Cache.prepare (P : Config V) (c : Cache K V) (a : Nat) (n : Node K) (key : K) (value : V) (now : Int) : Cache K V :=
  Cache.emplace { c with heap := c.heap.insert a { n with valueMemoryUsage := P.memoryUsage value } } key
    ⟨value, a, 0, now⟩

section
variable {n : Node K} {v : V} {now : Int}

theorem emplace_eq (c : Cache K V) (k : K) (e : Entry V) :
    c.emplace k e = { c with hashmap := (c.emplace k e).hashmap } := by
  unfold Cache.emplace
  split <;> rfl

theorem prepare_eq : c.prepare P a n k v now = { c with
    heap := c.heap.insert a { n with valueMemoryUsage := P.memoryUsage v }
    hashmap := (c.emplace k ⟨v, a, 0, now⟩).hashmap } := by
  rw [Cache.prepare, emplace_eq]
  unfold Cache.emplace
  split <;> rfl

theorem prepare_links (found : c.heap.lookup a = some n) :
    (c.prepare P a n k v now).next = c.next ∧ (c.prepare P a n k v now).prev = c.prev := by
  have links := write_links (c := c) (a := a) (n := { n with valueMemoryUsage := P.memoryUsage v })
    (by simp [Cache.next, found]) (by simp [Cache.prev, found])
  rw [prepare_eq]
  exact links

theorem prepare_payload (key : n.key = k) :
    (c.prepare P a n k v now).payload = update c.payload a (some (k, P.memoryUsage v)) := by
  have written := payload_write (c := c) (a := a) { n with valueMemoryUsage := P.memoryUsage v }
  rw [prepare_eq, ← key]
  exact written

theorem place_of_moved (found : c.heap.lookup a = some n) (key : n.key = k) {c₁ c₂ : Cache K V}
    (delinked : (c.prepare P a n k v now).delinkNode a = some c₁) (pushed : c₁.pushNodeToFront a = some c₂)
    (kept : Kept (c.prepare P a n k v now) c₂) : ∃ c', c.place P a k v now = some c' ∧ Placed P c c' a k v now ∧
      c' = { c₂ with itemCount := c'.itemCount, itemMemoryUsage := c'.itemMemoryUsage } := by
  have payload : c₂.payload = update c.payload a (some (k, P.memoryUsage v)) :=
    kept.payload.trans (prepare_payload key)
  have here := congrFun payload a
  rw [update_self] at here
  obtain ⟨n', found'⟩ := exists_node (by rw [here]; simp)
  have used : n'.valueMemoryUsage = P.memoryUsage v := by
    rw [Cache.payload, found', Option.map_some, Option.some.injEq, Prod.mk.injEq] at here
    exact here.2
  refine ⟨{ c₂ with itemCount := plus c₂.itemCount 1, itemMemoryUsage := plus c₂.itemMemoryUsage (P.memoryUsage v) },
    ?_, ⟨?_, ?_, ?_, payload⟩, rfl⟩
  · have delinked' := delinked
    rw [Cache.prepare] at delinked'
    simp [Cache.place, found, delinked', pushed, found', used]
  · rw [kept.hashmap, prepare_eq]
  · rw [kept.itemCount, prepare_eq]
  · rw [kept.itemMemoryUsage, prepare_eq]

theorem Tracked.place_new (tracked : Tracked c l) (loose : Loose c (l.map Prod.fst) a)
    (key : (c.payload a).map Prod.fst = some k) (fresh : k ∉ c.hashmap) (v : V) (now : Int) :
    ∃ c', c.place P a k v now = some c' ∧ Tracked c' ((a, k) :: l) ∧ Placed P c c' a k v now := by
  obtain ⟨n, found⟩ := exists_node loose.there
  have key : n.key = k := by simpa [Cache.payload, found] using key
  obtain ⟨next_, prev_⟩ : (c.prepare P a n k v now).next = c.next ∧ (c.prepare P a n k v now).prev = c.prev :=
    prepare_links found
  have payload : (c.prepare P a n k v now).payload = update c.payload a (some (k, P.memoryUsage v)) :=
    prepare_payload key
  have away : ∀ b ∈ l.map Prod.fst, b ≠ a := by
    rintro b mem rfl
    exact loose.out mem
  have listed : Listed (c.prepare P a n k v now) (l.map Prod.fst) := by
    refine tracked.listed.same_links next_ prev_ fun b mem => ?_
    rw [payload, update_of_ne (away b mem)]
    exact tracked.listed.there b mem
  have loose' : Loose (c.prepare P a n k v now) (l.map Prod.fst) a :=
    ⟨by simp [payload], loose.out, by rw [next_, loose.next], by rw [prev_, loose.prev]⟩
  obtain ⟨c₁, delinked, kept₁, listed₁, loose₁⟩ := listed.delinkNode_loose loose'
  obtain ⟨c₂, pushed, kept₂, listed₂⟩ := listed₁.pushNodeToFront loose₁
  obtain ⟨c', done, placed, rest⟩ := place_of_moved found key delinked pushed (kept₁.trans kept₂)
  have other : ∀ s ∈ l, s.2 ≠ k := by
    rintro s mem rfl
    exact fresh (tracked.mem_keys.2 (List.mem_map_of_mem mem))
  have hashmap : c'.hashmap = c.hashmap.insert k ⟨v, a, 0, now⟩ := by
    rw [placed.hashmap, Cache.emplace, if_neg fresh]
  refine ⟨c', done, ⟨?_, fun s mem => ?_, fun s mem => ?_, fun k' e held => ?_⟩, placed⟩
  · rw [rest]
    exact ⟨listed₂.ring, listed₂.nodup, listed₂.there⟩
  · rw [placed.payload]
    rcases List.mem_cons.1 mem with rfl | mem
    · simp
    · rw [update_of_ne (away _ (List.mem_map_of_mem mem))]
      exact tracked.key s mem
  · rw [hashmap]
    rcases List.mem_cons.1 mem with rfl | mem
    · simp
    · rw [Finmap.lookup_insert_of_ne _ (other s mem)]
      exact tracked.entry s mem
  · rw [hashmap] at held
    rcases eq_or_ne k' k with rfl | ne
    · rw [Finmap.lookup_insert] at held
      cases held
      exact List.mem_cons_self ..
    · rw [Finmap.lookup_insert_of_ne _ ne] at held
      exact List.mem_cons_of_mem _ (tracked.node k' e held)

theorem Tracked.place_known (tracked : Tracked c (before ++ (a, k) :: after)) (v : V) (now : Int) :
    ∃ c', c.place P a k v now = some c' ∧ Tracked c' ((a, k) :: (before ++ after)) ∧ Placed P c c' a k v now := by
  have here : (a, k) ∈ before ++ (a, k) :: after := List.mem_append_right _ (List.mem_cons_self ..)
  obtain ⟨n, found⟩ := exists_node (tracked.listed.there a (List.mem_map_of_mem here))
  have key : n.key = k := by
    have held := tracked.key _ here
    simpa [Cache.payload, found] using held
  obtain ⟨next_, prev_⟩ : (c.prepare P a n k v now).next = c.next ∧ (c.prepare P a n k v now).prev = c.prev :=
    prepare_links found
  have payload : (c.prepare P a n k v now).payload = update c.payload a (some (k, P.memoryUsage v)) :=
    prepare_payload key
  have hashmap : (c.prepare P a n k v now).hashmap = c.hashmap := by
    have known : k ∈ c.hashmap := tracked.mem_keys.2 (List.mem_map_of_mem here)
    rw [prepare_eq, Cache.emplace, if_pos known]
  have prepared : Tracked (c.prepare P a n k v now) (before ++ (a, k) :: after) := by
    refine ⟨tracked.listed.same_links next_ prev_ fun b mem => ?_, fun s mem => ?_, fun s mem => ?_, ?_⟩
    · rw [payload]
      rcases eq_or_ne b a with rfl | other
      · simp
      · rw [update_of_ne other]
        exact tracked.listed.there b mem
    · rw [payload]
      rcases eq_or_ne s.1 a with same | other
      · have held := tracked.key s mem
        rw [same, tracked.key _ here, Option.some.injEq] at held
        rw [same, update_self, Option.map_some, ← held]
      · rw [update_of_ne other]
        exact tracked.key s mem
    · rw [hashmap]
      exact tracked.entry s mem
    · rw [hashmap]
      exact tracked.node
  obtain ⟨c₁, c₂, delinked, pushed, kept, moved⟩ := prepared.moveToFront
  obtain ⟨c', done, placed, rest⟩ := place_of_moved found key delinked pushed kept
  refine ⟨c', done, ?_, placed⟩
  rw [rest]
  exact moved.counters _ _

end

theorem Tracked.nodeOf_new (tracked : Tracked c l) (fresh : k ∉ c.hashmap) (free : a ∉ c.heap) : ∃ c',
    c.nodeOf k a = some (a, c') ∧ c' = { c with heap := c'.heap } ∧ Tracked c' l ∧ Loose c' (l.map Prod.fst) a ∧
      c'.payload = update c.payload a (some (k, 0)) := by
  have none_ := Finmap.lookup_eq_none.2 free
  have nowhere : c.payload a = none := by simp [Cache.payload, none_]
  have out : a ∉ l.map Prod.fst := fun mem => tracked.listed.there a mem nowhere
  have next_ : c.next (some a) = none := by simp [Cache.next, none_]
  have prev_ : c.prev (some a) = none := by simp [Cache.prev, none_]
  have payload := payload_write (c := c) (a := a) ⟨k, 0, none, none⟩
  have links := write_links (c := c) (a := a) (n := ⟨k, 0, none, none⟩) next_.symm prev_.symm
  have away : ∀ b ∈ l.map Prod.fst, b ≠ a := by
    rintro b mem rfl
    exact out mem
  refine ⟨{ c with heap := c.heap.insert a ⟨k, 0, none, none⟩ }, ?_, rfl,
    ⟨tracked.listed.same_links links.1 links.2 fun b mem => ?_, fun s mem => ?_, tracked.entry, tracked.node⟩,
    ⟨?_, out, by rw [links.1, next_], by rw [links.2, prev_]⟩, payload⟩
  · simp only [Cache.nodeOf, Finmap.lookup_eq_none.2 fresh, guard, if_pos free]
    rfl
  · rw [payload, update_of_ne (away b mem)]
    exact tracked.listed.there b mem
  · rw [payload, update_of_ne (away _ (List.mem_map_of_mem mem))]
    exact tracked.key s mem
  · rw [payload, update_self]
    simp

section
variable {e : Entry V} {now now' : Int} {upgraded : Bool}

theorem Tracked.find_evicts (tracked : Tracked c (before ++ (e.node, k) :: after)) (upgraded : Bool)
    (found : c.hashmap.lookup k = some e)
    (old : itemOutdated P e.touch.accessCount e.insertTimestampSec now = true)
    (still : itemOutdated P e.touch.accessCount e.insertTimestampSec now' = true) :
    ∃ c', c.find P k now now' upgraded = some (some e.value, c') ∧ Tracked c' (before ++ after) ∧
      Evicted (c.touch k e) c' (e.node, k) := by
  obtain ⟨c', evicted, tracked', gone, -⟩ := (tracked.touch found).evict
  refine ⟨c', ?_, tracked', gone⟩
  have again : (c.touch k e).hashmap.lookup k = some e.touch := by simp [Cache.touch]
  have still' : itemOutdated P e.touch.accessCount e.touch.insertTimestampSec now' = true := still
  have evicted' : (c.touch k e).evict (some e.touch.node) = some c' := evicted
  simp [Cache.find, found, again, if_pos old, if_pos still', evicted']

theorem find_stays (found : c.hashmap.lookup k = some e)
    (stays : if itemOutdated P e.touch.accessCount e.insertTimestampSec now = true
      then itemOutdated P e.touch.accessCount e.insertTimestampSec now' = false else upgraded = false) :
    c.find P k now now' upgraded = some (some e.value, c.touch k e) := by
  have again : (c.touch k e).hashmap.lookup k = some e.touch := by simp [Cache.touch]
  by_cases old : itemOutdated P e.touch.accessCount e.insertTimestampSec now = true
  · rw [if_pos old] at stays
    have fresh : ¬ itemOutdated P e.touch.accessCount e.touch.insertTimestampSec now' = true := by
      rw [Bool.not_eq_true]
      exact stays
    simp [Cache.find, found, again, if_pos old, if_neg fresh]
  · rw [if_neg old] at stays
    simp [Cache.find, found, if_neg old, stays]

theorem Tracked.find_moves (tracked : Tracked c (before ++ (e.node, k) :: after)) (now' : Int)
    (found : c.hashmap.lookup k = some e)
    (fresh : itemOutdated P e.touch.accessCount e.insertTimestampSec now = false) :
    ∃ c', c.find P k now now' true = some (some e.value, c') ∧ Tracked c' ((e.node, k) :: (before ++ after)) ∧
      Kept (c.touch k e) c' := by
  obtain ⟨c₁, c', delinked, pushed, kept, tracked'⟩ := (tracked.touch found).moveToFront
  refine ⟨c', ?_, tracked', kept⟩
  simp [Cache.find, found, fresh, delinked, pushed]

end

omit [DecidableEq K] in
theorem deleteFrom_chain {next : Ptr → Ptr} {heap : Finmap fun _ : Nat => Node K} {n : Nat} {p : Ptr}
    {l : List Nat} (chain : (p :: (l.map some ++ [none])).IsChain fun x y => next x = y) (nodup : l.Nodup)
    (there : ∀ a ∈ l, ∃ node, heap.lookup a = some node ∧ node.next = next (some a)) (enough : l.length ≤ n) :
    ∃ heap', Cache.deleteFrom heap n (next p) = some heap' := by
  induction l generalizing p heap n with
  | nil =>
    have last : next p = none := (List.isChain_cons_cons.1 chain).1
    refine ⟨heap, ?_⟩
    rw [last]
    cases n <;> rfl
  | cons a l ih =>
    obtain ⟨first, rest⟩ := List.isChain_cons_cons.1 chain
    obtain ⟨node, found, next_⟩ := there a (List.mem_cons_self ..)
    obtain ⟨fresh, nodup'⟩ := List.nodup_cons.1 nodup
    cases n with
    | zero => simp at enough
    | succ n =>
      have there' : ∀ b ∈ l, ∃ node, (heap.erase a).lookup b = some node ∧ node.next = next (some b) := by
        intro b mem
        rw [Finmap.lookup_erase_ne (by rintro rfl; exact fresh mem)]
        exact there b (List.mem_cons_of_mem _ mem)
      obtain ⟨heap', deleted⟩ := ih rest nodup' there' (by simpa using enough)
      refine ⟨heap', ?_⟩
      rw [first]
      simp [Cache.deleteFrom, found, next_, deleted]

theorem Tracked.clear (tracked : Tracked c l) : ∃ c', c.clear = some c' ∧ Tracked c' [] ∧ c'.hashmap = ∅ ∧
    c'.itemCount = 0 ∧ c'.itemMemoryUsage = 0 := by
  have chain : (none :: ((l.map Prod.fst).map some ++ [none])).IsChain fun x y => c.next x = y :=
    tracked.listed.ring.imp fun _ _ link => link.1
  have there : ∀ a ∈ l.map Prod.fst, ∃ node, c.heap.lookup a = some node ∧ node.next = c.next (some a) := by
    intro a mem
    obtain ⟨node, found⟩ := exists_node (tracked.listed.there a mem)
    exact ⟨node, found, by simp [Cache.next, found]⟩
  have enough : (l.map Prod.fst).length ≤ c.heap.keys.card := by
    rw [← List.toFinset_card_of_nodup tracked.listed.nodup]
    refine Finset.card_le_card fun a mem => ?_
    obtain ⟨node, found, -⟩ := there a (List.mem_toFinset.1 mem)
    exact Finmap.mem_keys.2 (Finmap.mem_of_lookup_eq_some found)
  obtain ⟨heap', deleted⟩ := deleteFrom_chain chain tracked.listed.nodup there enough
  have deleted' : Cache.deleteFrom c.heap c.heap.keys.card c.head = some heap' := deleted
  refine ⟨{ c with
    hashmap := ∅, heap := heap', itemMemoryUsage := 0, itemCount := 0, head := none, tail := none }, ?_,
    ⟨⟨Ring.nil rfl rfl, List.nodup_nil, by simp⟩, by simp, by simp, fun k e found => ?_⟩, rfl, rfl, rfl⟩
  · simp [Cache.clear, deleted']
  · simp at found

end Prpc.LRUCache
