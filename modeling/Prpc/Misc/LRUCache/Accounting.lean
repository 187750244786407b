import Mathlib.Algebra.GroupWithZero.Nat
import Mathlib.Algebra.BigOperators.Group.Finset.Basic
import Prpc.Misc.LRUCache.Tracking

namespace Prpc.LRUCache
open Lib

variable {K V : Type} [DecidableEq K] {P : Config V} {c c' : Cache K V} {a : Nat} {k : K}
  {l : List (Nat × K)}

def Cache.usageOf (P : Config V) (c : Cache K V) (k : K) : Nat :=
  ((c.hashmap.lookup k).map fun e => P.memoryUsage e.value).getD 0

structure Accounted (P : Config V) (c : Cache K V) (l : List (Nat × K)) : Prop where
  listed : Listed c (l.map Prod.fst)
  entry : ∀ s ∈ l, ∃ e, c.payload s.1 = some (s.2, P.memoryUsage e.value) ∧
    c.hashmap.lookup s.2 = some e ∧ e.node = s.1
  node : ∀ k e, c.hashmap.lookup k = some e → (e.node, k) ∈ l
  count : c.itemCount = l.length % 2 ^ 64
  memory : c.itemMemoryUsage = (l.map fun s => c.usageOf P s.2).sum % 2 ^ 64

theorem minus_mod (total part : Nat) : minus ((total + part) % 2 ^ 64) part = total % 2 ^ 64 := by
  unfold minus
  have small := Nat.mod_lt part (Nat.two_pow_pos 64)
  omega

theorem plus_mod (total part : Nat) : plus (total % 2 ^ 64) part = (total + part) % 2 ^ 64 := by
  unfold plus
  omega

theorem Accounted.empty (P : Config V) : Accounted P (LRUCache.empty K V) [] where
  listed := ⟨Ring.nil rfl rfl, List.nodup_nil, nofun⟩
  entry := nofun
  node k e found := by simp [LRUCache.empty] at found
  count := rfl
  memory := rfl

theorem Accounted.tracked (accounted : Accounted P c l) : Tracked c l where
  listed := accounted.listed
  key s mem := by
    obtain ⟨e, payload, -⟩ := accounted.entry s mem
    rw [payload, Option.map_some]
  entry s mem := by
    obtain ⟨e, -, found, node⟩ := accounted.entry s mem
    rw [found, Option.map_some, node]
  node := accounted.node

theorem Accounted.used (accounted : Accounted P c l) (s : Nat × K) (mem : s ∈ l) :
    c.payload s.1 = some (s.2, c.usageOf P s.2) := by
  obtain ⟨e, payload, found, -⟩ := accounted.entry s mem
  rw [payload, Cache.usageOf, found, Option.map_some, Option.getD_some]

theorem Tracked.accounted (tracked : Tracked c l) (used : ∀ s ∈ l, c.payload s.1 = some (s.2, c.usageOf P s.2))
    (count : c.itemCount = l.length % 2 ^ 64)
    (memory : c.itemMemoryUsage = (l.map fun s => c.usageOf P s.2).sum % 2 ^ 64) : Accounted P c l where
  listed := tracked.listed
  entry s mem := by
    obtain ⟨e, found, node⟩ := Option.map_eq_some_iff.1 (tracked.entry s mem)
    refine ⟨e, ?_, found, node⟩
    rw [used s mem, Cache.usageOf, found, Option.map_some, Option.getD_some]
  node := tracked.node
  count := count
  memory := memory

theorem Accounted.evicted {before after : List (Nat × K)} {s : Nat × K}
    (accounted : Accounted P c (before ++ s :: after)) (tracked : Tracked c' (before ++ after)) (gone : Evicted c c' s) :
    Accounted P c' (before ++ after) := by
  have inside {s' : Nat × K} (mem : s' ∈ before ++ after) : s' ∈ before ++ s :: after := by grind
  have keys : ∀ s' ∈ before ++ after, s'.2 ≠ s.2 := by
    intro s' mem same
    have nodup := accounted.tracked.keys_nodup
    rw [List.map_append, List.map_cons, List.nodup_middle, List.nodup_cons, ← List.map_append, ← same] at nodup
    exact nodup.1 (List.mem_map_of_mem mem)
  have nodes : ∀ s' ∈ before ++ after, s'.1 ≠ s.1 := by
    intro s' mem same
    have nodup := accounted.listed.nodup
    rw [List.map_append, List.map_cons, List.nodup_middle, List.nodup_cons, ← List.map_append, ← same] at nodup
    exact nodup.1 (List.mem_map_of_mem mem)
  have usage : ∀ s' ∈ before ++ after, c'.usageOf P s'.2 = c.usageOf P s'.2 := by
    intro s' mem
    rw [Cache.usageOf, gone.hashmap, Finmap.lookup_erase_ne (keys s' mem), Cache.usageOf]
  refine tracked.accounted (fun s' mem => ?_) ?_ ?_
  · rw [gone.payload _ (nodes s' mem), usage s' mem]
    exact accounted.used s' (inside mem)
  · have total : (before ++ s :: after).length = (before ++ after).length + 1 := by simp; omega
    rw [gone.itemCount, accounted.count, total, minus_mod]
  · obtain ⟨used, payload, memory⟩ := gone.memory
    rw [accounted.used s (by simp), Option.some.injEq, Prod.mk.injEq] at payload
    have total : ((before ++ s :: after).map fun s => c.usageOf P s.2).sum =
        ((before ++ after).map fun s => c.usageOf P s.2).sum + used := by
      simp only [List.map_append, List.map_cons, List.sum_append, List.sum_cons, payload.2]
      omega
    rw [memory, accounted.memory, total, minus_mod, List.map_congr_left usage]

section
variable (accounted : Accounted P c l)
include accounted

theorem Accounted.evictIfNeeded : ∃ c' l', c.evictIfNeeded P = some c' ∧
    Accounted P c' l' ∧ (l' = l ∨ ∃ s, c.needToEvict P = true ∧ l = l' ++ [s]) ∧ (∀ k ∉ c.hashmap, k ∉ c'.hashmap) ∧
    ∀ b, Loose c (l.map Prod.fst) b → Loose c' (l'.map Prod.fst) b ∧ c'.payload b = c.payload b := by
  obtain ⟨c', l', done, tracked, change, loose⟩ := accounted.tracked.evictIfNeeded (P := P)
  rcases change with ⟨rfl, rfl, -⟩ | ⟨s, needed, rfl, gone⟩
  · exact ⟨c', l', done, accounted, .inl rfl, fun _ => id, fun b out => ⟨out, rfl⟩⟩
  · rw [← List.append_nil l'] at tracked
    have accounted' := accounted.evicted tracked gone
    rw [List.append_nil] at accounted'
    refine ⟨c', l', done, accounted', .inr ⟨s, needed, rfl⟩, fun k absent => ?_,
      fun b out => ⟨loose b out, gone.payload b ?_⟩⟩
    · rw [gone.hashmap, Finmap.mem_erase]
      exact fun there => absent there.2
    · rintro rfl
      exact out.out (List.mem_map_of_mem (List.mem_append_right _ (List.mem_singleton_self _)))

theorem Accounted.touch {e : Entry V} (found : c.hashmap.lookup k = some e) :
    Accounted P (c.touch k e) l := by
  have usage (k' : K) : (c.touch k e).usageOf P k' = c.usageOf P k' := by
    rw [Cache.usageOf, Cache.usageOf]
    rcases eq_or_ne k' k with rfl | other
    · simp [Cache.touch, Entry.touch, found]
    · simp [Cache.touch, other]
  refine (accounted.tracked.touch found).accounted (fun s mem => ?_) accounted.count ?_
  · rw [usage]
    exact accounted.used s mem
  · simp only [usage]
    exact accounted.memory

theorem Accounted.reorder (kept : Kept c c') {l' : List (Nat × K)}
    (perm : l'.Perm l) (tracked : Tracked c' l') : Accounted P c' l' := by
  have usage (k : K) : c'.usageOf P k = c.usageOf P k := by
    rw [Cache.usageOf, Cache.usageOf, kept.hashmap]
  refine tracked.accounted (fun s mem => ?_) ?_ ?_
  · rw [kept.payload, usage]
    exact accounted.used s (perm.mem_iff.1 mem)
  · rw [kept.itemCount, accounted.count, perm.length_eq]
  · simp only [usage]
    rw [kept.itemMemoryUsage, accounted.memory, (perm.map _).sum_eq]

theorem Accounted.find (k : K) (now now' : Int) (upgraded : Bool) :
    ∃ v c' l', c.find P k now now' upgraded = some (v, c') ∧ Accounted P c' l' := by
  cases found : c.hashmap.lookup k with
  | none => exact ⟨none, c, l, by simp [Cache.find, found], accounted⟩
  | some e =>
    have touched := accounted.touch found
    obtain ⟨before, after, rfl⟩ := List.append_of_mem (accounted.node k e found)
    cases old : itemOutdated P e.touch.accessCount e.insertTimestampSec now with
    | true =>
      cases still : itemOutdated P e.touch.accessCount e.insertTimestampSec now' with
      | true =>
        obtain ⟨c', done, tracked, gone⟩ := accounted.tracked.find_evicts upgraded found old still
        exact ⟨_, c', _, done, touched.evicted tracked gone⟩
      | false => exact ⟨_, _, _, find_stays found (by rw [old, if_pos rfl, still]), touched⟩
    | false =>
      cases upgraded with
      | false => exact ⟨_, _, _, find_stays found (by rw [old, if_neg (by decide)]), touched⟩
      | true =>
        obtain ⟨c', done, tracked, kept⟩ := accounted.tracked.find_moves now' found old
        exact ⟨_, c', _, done, touched.reorder kept List.perm_middle.symm tracked⟩

theorem Accounted.placed (fresh : k ∉ c.hashmap) {v : V} {now : Int}
    (tracked : Tracked c' ((a, k) :: l)) (placed : Placed P c c' a k v now) : Accounted P c' ((a, k) :: l) := by
  have other : ∀ s ∈ l, s.2 ≠ k := by
    rintro s mem rfl
    exact fresh (accounted.tracked.mem_keys.2 (List.mem_map_of_mem mem))
  have away : ∀ s ∈ l, s.1 ≠ a := by
    rintro s mem rfl
    exact (List.nodup_cons.1 tracked.listed.nodup).1 (List.mem_map.2 ⟨s, mem, rfl⟩)
  have hashmap : c'.hashmap = c.hashmap.insert k ⟨v, a, 0, now⟩ := by
    rw [placed.hashmap, Cache.emplace, if_neg fresh]
  have usage : ∀ s ∈ l, c'.usageOf P s.2 = c.usageOf P s.2 := by
    intro s mem
    rw [Cache.usageOf, hashmap, Finmap.lookup_insert_of_ne _ (other s mem), Cache.usageOf]
  have new : c'.usageOf P k = P.memoryUsage v := by simp [Cache.usageOf, hashmap]
  refine tracked.accounted (fun s mem => ?_) ?_ ?_
  · rw [placed.payload]
    rcases List.mem_cons.1 mem with rfl | mem
    · rw [Function.update_self, new]
    · rw [Function.update_of_ne (away s mem), usage s mem]
      exact accounted.used s mem
  · rw [placed.itemCount, accounted.count, plus_mod, List.length_cons]
  · rw [placed.itemMemoryUsage, accounted.memory, plus_mod, List.map_cons, List.sum_cons, List.map_congr_left usage, new,
      Nat.add_comm]

theorem Accounted.insert (fresh : k ∉ c.hashmap) (free : a ∉ c.heap) (v : V)
    (now : Int) : ∃ c' l', c.insert P k v a now = some c' ∧ Accounted P c' l' ∧
      (1 ≤ P.maxItemCount → P.maxItemMemoryUsage = 0 → k ∈ c'.hashmap) := by
  obtain ⟨c₀, node, rest, tracked₀, loose₀, payload₀⟩ := accounted.tracked.nodeOf_new fresh free
  have hashmap₀ : c₀.hashmap = c.hashmap := by rw [rest]
  have usage₀ (k : K) : c₀.usageOf P k = c.usageOf P k := by rw [Cache.usageOf, Cache.usageOf, hashmap₀]
  have accounted₀ : Accounted P c₀ l := by
    refine tracked₀.accounted (fun s mem => ?_) ?_ ?_
    · have other : s.1 ≠ a := by
        rintro rfl
        exact loose₀.out (List.mem_map_of_mem mem)
      rw [payload₀, Function.update_of_ne other, usage₀]
      exact accounted.used s mem
    · rw [rest]
      exact accounted.count
    · simp only [usage₀]
      rw [rest]
      exact accounted.memory
  obtain ⟨c₁, l₁, evicted, accounted₁, -, absent, others⟩ := accounted₀.evictIfNeeded
  obtain ⟨loose₁, payload₁⟩ := others a loose₀
  have fresh₁ : k ∉ c₁.hashmap := absent k (hashmap₀ ▸ fresh)
  obtain ⟨c₂, done, tracked₂, placed⟩ := accounted₁.tracked.place_new (P := P) loose₁
    (by rw [payload₁, payload₀, Function.update_self]; rfl) fresh₁ v now
  have accounted₂ := accounted₁.placed fresh₁ tracked₂ placed
  obtain ⟨c', l', evicted', accounted', change, -, -⟩ := accounted₂.evictIfNeeded
  refine ⟨c', l', ?_, accounted', fun limit noMemory => ?_⟩
  · simp [insert_eq, node, evicted, done, evicted']
  · rw [accounted'.tracked.mem_keys]
    rcases change with rfl | ⟨s, needed, split⟩
    · exact List.mem_cons_self ..
    · cases l' with
      | nil =>
        -- the new key is the only one, and one key is not too many
        have one : c₂.itemCount = 1 := by
          rw [accounted₂.count, split]
          rfl
        simp [Cache.needToEvict, one, noMemory] at needed
      | cons x l' =>
        rw [List.cons_append, List.cons.injEq] at split
        rw [← split.1]
        exact List.mem_cons_self ..

theorem Accounted.clear : ∃ c', c.clear = some c' ∧ Accounted P c' [] := by
  obtain ⟨c', cleared, tracked, -, count, memory⟩ := accounted.tracked.clear
  exact ⟨c', cleared, tracked.accounted nofun count memory⟩

theorem Accounted.apply {op : Op K V} (legal : Legal c op)
    (new : InsertsNew c op) : ∃ c' l', apply P c op = some c' ∧ Accounted P c' l' := by
  cases op with
  | insert key value address now =>
    obtain ⟨c', l', inserted, accounted', -⟩ := accounted.insert new legal value now
    exact ⟨c', l', inserted, accounted'⟩
  | find key now now' upgraded =>
    obtain ⟨v, c', l', found, accounted'⟩ := accounted.find key now now' upgraded
    refine ⟨c', l', ?_, accounted'⟩
    simp [LRUCache.apply, found]
  | clear =>
    obtain ⟨c', cleared, accounted'⟩ := accounted.clear
    exact ⟨c', [], cleared, accounted'⟩

end

theorem accounted_reachable (reachable : CacheReachable P InsertsNew c) : ∃ l, Accounted P c l := by
  refine Reachable.invariant (fun c => ∃ l, Accounted P c l) ?_ ?_ reachable
  · rintro c rfl
    exact ⟨[], Accounted.empty P⟩
  · rintro c c' ⟨l, accounted⟩ ⟨op, legal, new, applied⟩
    obtain ⟨c'', l', applied', accounted'⟩ := accounted.apply legal new
    rw [applied] at applied'
    cases applied'
    exact ⟨l', accounted'⟩

/-- What the list, the map and the counters say of one another; the counters are of type `size_t`. -/
structure Consistent (P : Config V) (c : Cache K V) : Prop where
  list : ∃ l : List (Nat × K), Ring c.next c.prev none (l.map fun s => some s.1) ∧
    (l.map Prod.snd).Nodup ∧ (∀ k, k ∈ c.hashmap ↔ k ∈ l.map Prod.snd) ∧
    ∀ s ∈ l, ∃ node e, c.heap.lookup s.1 = some node ∧ node.key = s.2 ∧
      c.hashmap.lookup s.2 = some e ∧ e.node = s.1
  count : c.itemCount = c.hashmap.keys.card % 2 ^ 64
  memory : c.itemMemoryUsage = (∑ k ∈ c.hashmap.keys, c.usageOf P k) % 2 ^ 64

theorem Accounted.consistent (accounted : Accounted P c l) : Consistent P c := by
  have keys : c.hashmap.keys = (l.map Prod.snd).toFinset := by
    ext k
    rw [Finmap.mem_keys, accounted.tracked.mem_keys, List.mem_toFinset]
  refine ⟨⟨l, ?_, accounted.tracked.keys_nodup, fun k => accounted.tracked.mem_keys, fun s mem => ?_⟩, ?_, ?_⟩
  · have ring := accounted.listed.ring
    rwa [List.map_map] at ring
  · obtain ⟨e, payload, found, node⟩ := accounted.entry s mem
    obtain ⟨n, there⟩ := exists_node (by rw [payload]; simp)
    refine ⟨n, e, there, ?_, found, node⟩
    simp only [Cache.payload, there, Option.map_some, Option.some.injEq, Prod.mk.injEq] at payload
    exact payload.1
  · rw [accounted.count, keys, List.toFinset_card_of_nodup accounted.tracked.keys_nodup, List.length_map]
  · rw [accounted.memory, keys, List.sum_toFinset _ accounted.tracked.keys_nodup, List.map_map]
    rfl

/-- In every run that inserts only new keys the cache is consistent, and the next operation that does
not insert a key again goes through. -/
theorem cache_consistent (P : Config V) {c : Cache K V} (reachable : CacheReachable P InsertsNew c) :
    Consistent P c ∧ ∀ op, Legal c op → InsertsNew c op → ∃ c', apply P c op = some c' := by
  obtain ⟨l, accounted⟩ := accounted_reachable reachable
  refine ⟨accounted.consistent, fun op legal new => ?_⟩
  obtain ⟨c', l', applied, -⟩ := accounted.apply legal new
  exact ⟨c', applied⟩

def fourItems : Config Nat := ⟨4, 0, 0, 0, fun _ => 8⟩

def tenBytes : Config Nat := ⟨0, 10, 0, 0, id⟩

/-- A key that is inserted twice is counted twice, and its node may be deleted before it is used. -/
theorem inserted_twice :
    (∃ c : Cache Nat Nat, CacheReachable fourItems (fun _ _ => True) c ∧ c.itemCount = 2 ∧
      c.itemMemoryUsage = 16 ∧ c.hashmap.keys.card = 1 ∧ ¬ Consistent fourItems c) ∧
    ∃ c : Cache Nat Nat, CacheReachable tenBytes (fun _ _ => True) c ∧ 2 ∉ c.heap ∧
      apply tenBytes c (.insert 2 20 2 0) = none := by
  constructor
  · obtain ⟨c₁, first, c₂, second, free, count, memory, card⟩ : ∃ c₁,
        apply fourItems (empty Nat Nat) (.insert 1 5 0 0) = some c₁ ∧ ∃ c₂,
        apply fourItems c₁ (.insert 1 6 1 0) = some c₂ ∧ 1 ∉ c₁.heap ∧ c₂.itemCount = 2 ∧
        c₂.itemMemoryUsage = 16 ∧ c₂.hashmap.keys.card = 1 :=
      ⟨_, rfl, _, rfl, by decide, rfl, rfl, rfl⟩
    have start : CacheReachable fourItems (fun _ _ => True) c₁ :=
      .next (.initial rfl) (.op (.insert 1 5 0 0) Finmap.notMem_empty trivial first)
    refine ⟨c₂, start.next (.op (.insert 1 6 1 0) free trivial second), count, memory, card,
      fun consistent => ?_⟩
    have counted := consistent.count
    rw [count, card] at counted
    exact absurd counted (by decide)
  · obtain ⟨c₁, first, c₂, second, free, free', fails⟩ : ∃ c₁,
        apply tenBytes (empty Nat Nat) (.insert 1 4 0 0) = some c₁ ∧ ∃ c₂,
        apply tenBytes c₁ (.insert 2 20 1 0) = some c₂ ∧ 1 ∉ c₁.heap ∧ 2 ∉ c₂.heap ∧
        apply tenBytes c₂ (.insert 2 20 2 0) = none :=
      ⟨_, rfl, _, rfl, by decide, by decide, rfl⟩
    have start : CacheReachable tenBytes (fun _ _ => True) c₁ :=
      .next (.initial rfl) (.op (.insert 1 4 0 0) Finmap.notMem_empty trivial first)
    exact ⟨c₂, start.next (.op (.insert 2 20 1 0) free trivial second), free', fails⟩

theorem cache_consistent_one : ∃ c : Cache Nat Nat, CacheReachable fourItems InsertsNew c ∧
    c.itemCount = 1 ∧ Consistent fourItems c := by
  obtain ⟨c, first, count⟩ : ∃ c, apply fourItems (empty Nat Nat) (.insert 1 5 0 0) = some c ∧
      c.itemCount = 1 := ⟨_, rfl, rfl⟩
  have reachable : CacheReachable fourItems InsertsNew c :=
    .next (.initial rfl) (.op (.insert 1 5 0 0) Finmap.notMem_empty Finmap.notMem_empty first)
  exact ⟨c, reachable, count, (cache_consistent fourItems reachable).1⟩

end Prpc.LRUCache
