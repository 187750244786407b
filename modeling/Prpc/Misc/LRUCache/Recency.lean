import Prpc.Misc.LRUCache.Values

namespace Prpc.LRUCache
open Lib
open Function (update update_self update_of_ne)

section
variable {K V : Type} [DecidableEq K]

/-- A cache with its past: how many operations there were, which of them was the last to touch a key, and how often
the key was found since it came into the cache. -/
structure Timed (K V : Type) where
  cache : Cache K V
  time : Nat
  touched : K → Nat
  finds : K → Nat

namespace Timed

def initial (K V : Type) : Timed K V := ⟨empty K V, 0, fun _ => 0, fun _ => 0⟩

def keys (s : Timed K V) : Finset K := s.cache.hashmap.keys

def apply (P : Config V) (s : Timed K V) : Op K V → Option (Timed K V)
  | .insert key value address now => do
    let c ← s.cache.insert P key value address now
    return {
      cache := c
      time := s.time + 1
      touched := update s.touched key (s.time + 1)
      finds := if key ∈ s.keys then s.finds else update s.finds key 0 }
  | .find key now now' upgraded => do
    let (r, c) ← s.cache.find P key now now' upgraded
    return {
      cache := c
      time := s.time + 1
      touched := if r.isSome ∧ upgraded then update s.touched key (s.time + 1) else s.touched
      finds := if r.isSome then update s.finds key (s.finds key + 1) else s.finds }
  | .clear => do
    let c ← s.cache.clear
    return { s with cache := c, time := s.time + 1 }

end Timed

inductive TimedStep (P : Config V) : Timed K V → Timed K V → Prop
  | op {s s' : Timed K V} (op : Op K V) (legal : Legal s.cache op) (applied : s.apply P op = some s') : TimedStep P s s'

abbrev TimedReachable (P : Config V) : Timed K V → Prop := Reachable (· = .initial K V) (TimedStep P)

def Leaves (P : Config V) (s s' : Timed K V) : Op K V → Prop
  | .insert key .. => s'.keys = insert key s.keys ∨ ∃ x ∈ insert key s.keys,
      (∀ y ∈ insert key s.keys, s'.touched x ≤ s'.touched y) ∧ s'.keys = (insert key s.keys).erase x
  | .find key .. =>
    s'.keys = if key ∈ s.keys ∧ s.finds key + 1 = P.itemMaxAccessCount then s.keys.erase key else s.keys
  | .clear => s'.keys = ∅

end

section
variable {K V : Type} [DecidableEq K] {P : Config V} {s : Timed K V} {l : List (Nat × K)}

structure Plain (P : Config V) : Prop where
  limit : 1 ≤ P.maxItemCount
  noMemory : P.maxItemMemoryUsage = 0
  noTtl : P.itemTtlSec = 0

def Decreasing (touched : K → Nat) (keys : List K) : Prop := keys.Pairwise fun k k' => touched k' < touched k

structure Recent (P : Config V) (s : Timed K V) (l : List (Nat × K)) : Prop where
  tracked : Tracked s.cache l
  ordered : Decreasing s.touched (l.map Prod.snd)
  past : ∀ k, s.touched k ≤ s.time
  counted : ∀ k e, s.cache.hashmap.lookup k = some e → e.accessCount = Int.bmod (s.finds k) (2 ^ 32) ∧
    (P.itemMaxAccessCount ≠ 0 → s.finds k < P.itemMaxAccessCount)
  room : s.cache.itemCount ≤ P.maxItemCount ∧ (P.maxItemCount + 1 < 2 ^ 64 → l.length ≤ s.cache.itemCount)

theorem Recent.mem_keys {k : K} (recent : Recent P s l) : k ∈ s.keys ↔ k ∈ l.map Prod.snd :=
  Finmap.mem_keys.trans recent.tracked.mem_keys

variable {touched : K → Nat}

theorem Decreasing.touch {keys : List K} {k : K} {t : Nat} (ordered : Decreasing touched keys)
    (out : k ∉ keys) (later : ∀ k', touched k' < t) : Decreasing (update touched k t) (k :: keys) := by
  have same {k' : K} (mem : k' ∈ keys) : update touched k t k' = touched k' :=
    update_of_ne (by rintro rfl; exact out mem) ..
  refine List.pairwise_cons.2 ⟨fun k' mem => ?_, ordered.imp_of_mem fun mem mem' lt => ?_⟩
  · rw [update_self, same mem]
    exact later k'
  · rw [same mem, same mem']
    exact lt

omit [DecidableEq K] in
theorem needToEvict_iff (plain : Plain P) {c : Cache K V} : c.needToEvict P = true ↔ P.maxItemCount < c.itemCount := by
  have limit := plain.limit
  simp [Cache.needToEvict, plain.noMemory]
  omega

omit [DecidableEq K] in
theorem accessCount_touch (e : Entry V) : e.touch.accessCount = Int.bmod (e.accessCount + 1) (2 ^ 32) := by
  simp [Entry.touch]

/-- The `n`-th access is taken for what it is. It is counted in an `int`, which is compared as a `size_t`. -/
def Counts (limit n : Nat) : Prop := n < 2 ^ 31 ∨ limit ≤ 2 ^ 31 ∨ n < 2 ^ 32 ∧ n + (2 ^ 64 - 2 ^ 32) < limit

theorem bmod_large {n : Nat} (large : 2 ^ 31 ≤ n) (small : n < 2 ^ 32) :
    Int.bmod n (2 ^ 32) % 2 ^ 64 = n + (2 ^ 64 - 2 ^ 32) := by
  have value : Int.bmod n (2 ^ 32) = n - 2 ^ 32 := by
    rw [← Int.sub_bmod_right]
    exact Int.bmod_eq_of_le (by omega) (by omega)
  rw [value]
  omega

theorem itemOutdated_iff (plain : Plain P) {n : Nat} (low : P.itemMaxAccessCount ≠ 0 → n < P.itemMaxAccessCount)
    (counts : Counts P.itemMaxAccessCount (n + 1)) (t now : Int) :
    itemOutdated P (Int.bmod (Int.bmod n (2 ^ 32) + 1) (2 ^ 32)) t now = true ↔ n + 1 = P.itemMaxAccessCount := by
  rw [Int.bmod_add_bmod, ← Int.natCast_succ]
  simp only [itemOutdated, plain.noTtl, ne_eq, not_true_eq_false, decide_false, Bool.false_and, Bool.or_false,
    Bool.and_eq_true, decide_eq_true_eq]
  by_cases none_ : P.itemMaxAccessCount = 0
  · rw [none_]
    omega
  · have low := low none_
    by_cases small : n + 1 < 2 ^ 31
    · have value : Int.bmod (n + 1 : Nat) (2 ^ 32) = n + 1 := Int.bmod_eq_of_le (by omega) (by omega)
      rw [value]
      omega
    · have narrow : n + 1 < 2 ^ 32 := by
        unfold Counts at counts
        omega
      rw [bmod_large (Nat.not_lt.1 small) narrow]
      unfold Counts at counts
      omega

theorem room_minus {x limit length : Nat} (room : x ≤ limit ∧ (limit + 1 < 2 ^ 64 → length + 1 ≤ x)) :
    minus x 1 ≤ limit ∧ (limit + 1 < 2 ^ 64 → length ≤ minus x 1) := by
  unfold minus
  omega

theorem minus_plus {x : Nat} (small : x < 2 ^ 64) : minus (plus x 1) 1 = x := by
  unfold minus plus
  omega

section
variable {k : K} {e : Entry V}

theorem Recent.counted_touch (recent : Recent P s l) (found : s.cache.hashmap.lookup k = some e)
    (more : P.itemMaxAccessCount ≠ 0 → s.finds k + 1 < P.itemMaxAccessCount) (k' : K) (e' : Entry V)
    (held : (s.cache.touch k e).hashmap.lookup k' = some e') :
    e'.accessCount = Int.bmod (update s.finds k (s.finds k + 1) k' : Nat) (2 ^ 32) ∧
      (P.itemMaxAccessCount ≠ 0 → update s.finds k (s.finds k + 1) k' < P.itemMaxAccessCount) := by
  rcases eq_or_ne k' k with rfl | other
  · rw [Cache.touch, Finmap.lookup_insert] at held
    cases held
    rw [update_self]
    refine ⟨?_, more⟩
    rw [accessCount_touch, (recent.counted k' e found).1, Int.bmod_add_bmod, Int.natCast_succ]
  · rw [Cache.touch, Finmap.lookup_insert_of_ne _ other] at held
    rw [update_of_ne other]
    exact recent.counted k' e' held

theorem keys_touch (found : s.cache.hashmap.lookup k = some e) : (s.cache.touch k e).hashmap.keys = s.keys := by
  ext k'
  rw [Finmap.mem_keys, Timed.keys, Finmap.mem_keys, Cache.touch, Finmap.mem_insert, or_iff_right_iff_imp]
  rintro rfl
  exact Finmap.mem_of_lookup_eq_some found

theorem Decreasing.update_other {keys : List K} (ordered : Decreasing touched keys) (t : Nat)
    (out : k ∉ keys) : Decreasing (update touched k t) keys := by
  refine ordered.imp_of_mem fun {k₁ k₂} mem mem' lt => ?_
  rw [update_of_ne (by rintro rfl; exact out mem'), update_of_ne (by rintro rfl; exact out mem)]
  exact lt

theorem past_update {time : Nat} (past : ∀ k, touched k ≤ time) (k k' : K) :
    update touched k (time + 1) k' ≤ time + 1 := by
  rcases eq_or_ne k' k with rfl | other
  · rw [update_self]
  · rw [update_of_ne other]
    exact (past k').trans (Nat.le_succ _)

theorem Recent.of_find (plain : Plain P) (recent : Recent P s l) (k : K)
    (counts : Counts P.itemMaxAccessCount (s.finds k + 1)) (now now' : Int) (upgraded : Bool) :
    ∃ s' l', s.apply P (.find k now now' upgraded) = some s' ∧ Recent P s' l' ∧
      Leaves P s s' (.find k now now' upgraded) ∧ (k ∈ s.keys → s'.finds k = s.finds k + 1) := by
  cases found : s.cache.hashmap.lookup k with
  | none =>
    have absent : k ∉ s.keys := by
      rw [Timed.keys, Finmap.mem_keys]
      exact Finmap.lookup_eq_none.1 found
    refine ⟨{ s with time := s.time + 1 }, l, ?_,
      ⟨recent.tracked, recent.ordered, fun k => (recent.past k).trans (Nat.le_succ _), recent.counted, recent.room⟩, ?_,
      fun there => (absent there).elim⟩
    · simp [Timed.apply, Cache.find, found]
    · exact (if_neg fun both => absent both.1).symm
  | some e =>
    have there : k ∈ s.keys := Finmap.mem_keys.2 (Finmap.mem_of_lookup_eq_some found)
    obtain ⟨before, after, rfl⟩ := List.append_of_mem (recent.tracked.node k e found)
    obtain ⟨count, low⟩ := recent.counted k e found
    have out : k ∉ (before ++ after).map Prod.snd := by
      have nodup := recent.tracked.keys_nodup
      rw [List.map_append, List.map_cons, List.nodup_middle, List.nodup_cons, ← List.map_append] at nodup
      exact nodup.1
    have shorter : Decreasing s.touched ((before ++ after).map Prod.snd) := by
      refine recent.ordered.sublist (List.Sublist.map _ ?_)
      exact List.Sublist.append_left (List.sublist_cons_self ..) _
    have outdated (t : Int) : itemOutdated P e.touch.accessCount e.insertTimestampSec t = true ↔
        s.finds k + 1 = P.itemMaxAccessCount := by
      rw [accessCount_touch, count]
      exact itemOutdated_iff plain low counts _ t
    by_cases last : s.finds k + 1 = P.itemMaxAccessCount
    · obtain ⟨c', done, tracked, gone⟩ :=
        recent.tracked.find_evicts upgraded found ((outdated now).2 last) ((outdated now').2 last)
      have hashmap : c'.hashmap = (s.cache.touch k e).hashmap.erase k := gone.hashmap
      refine ⟨⟨c', s.time + 1, if upgraded then update s.touched k (s.time + 1) else s.touched,
        update s.finds k (s.finds k + 1)⟩, before ++ after, ?_, ⟨tracked, ?_, ?_, ?_, ?_⟩, ?_,
        fun _ => update_self ..⟩
      · simp [Timed.apply, done]
      · cases upgraded with
        | false => exact shorter
        | true => exact shorter.update_other _ out
      · cases upgraded with
        | false => exact fun k' => (recent.past k').trans (Nat.le_succ _)
        | true => exact past_update recent.past k
      · intro k' e' held
        have other : k' ≠ k := by
          rintro rfl
          rw [hashmap, Finmap.lookup_erase] at held
          cases held
        rw [hashmap, Finmap.lookup_erase_ne other, Cache.touch, Finmap.lookup_insert_of_ne _ other] at held
        dsimp only
        rw [update_of_ne other]
        exact recent.counted k' e' held
      · rw [gone.itemCount]
        have room := recent.room
        rw [List.length_append, List.length_cons, ← Nat.add_assoc, ← List.length_append] at room
        exact room_minus room
      · refine Eq.trans ?_ (if_pos ⟨there, last⟩).symm
        rw [Timed.keys, hashmap, Finmap.keys_erase, keys_touch found]
    · have more : P.itemMaxAccessCount ≠ 0 → s.finds k + 1 < P.itemMaxAccessCount := fun limited => by
        have := low limited
        omega
      have fresh : itemOutdated P e.touch.accessCount e.insertTimestampSec now = false := by
        rw [← Bool.not_eq_true, outdated]
        exact last
      have stays : s.keys = if k ∈ s.keys ∧ s.finds k + 1 = P.itemMaxAccessCount then s.keys.erase k else s.keys :=
        (if_neg fun both => last both.2).symm
      cases upgraded with
      | false =>
        have done : s.cache.find P k now now' false = some (some e.value, s.cache.touch k e) :=
          find_stays found (by rw [fresh, if_neg (by decide)])
        refine ⟨⟨s.cache.touch k e, s.time + 1, s.touched, update s.finds k (s.finds k + 1)⟩, _, ?_,
          ⟨recent.tracked.touch found, recent.ordered, fun k' => (recent.past k').trans (Nat.le_succ _),
            recent.counted_touch found more, recent.room⟩, ?_, fun _ => update_self ..⟩
        · simp [Timed.apply, done]
        · exact (keys_touch found).trans stays
      | true =>
        obtain ⟨c', done, tracked, kept⟩ := recent.tracked.find_moves now' found fresh
        refine ⟨⟨c', s.time + 1, update s.touched k (s.time + 1), update s.finds k (s.finds k + 1)⟩,
          _, ?_, ⟨tracked, ?_, past_update recent.past k, ?_, ?_⟩, ?_, fun _ => update_self ..⟩
        · simp [Timed.apply, done]
        · exact shorter.touch out fun k' => Nat.lt_succ_of_le (recent.past k')
        · rw [kept.hashmap]
          exact recent.counted_touch found more
        · rw [kept.itemCount, List.length_cons, List.length_append]
          have room := recent.room
          rw [List.length_append, List.length_cons, ← Nat.add_assoc] at room
          exact room
        · refine Eq.trans ?_ stays
          rw [Timed.keys, kept.hashmap, keys_touch found]

end

section
variable {k : K}

theorem Recent.evictLast (plain : Plain P) {c : Cache K V} {t : Timed K V} {full : List (Nat × K)}
    (tracked : Tracked c full) (some_ : full ≠ []) (ordered : Decreasing t.touched (full.map Prod.snd))
    (past : ∀ k, t.touched k ≤ t.time)
    (counted : ∀ k e, c.hashmap.lookup k = some e → e.accessCount = Int.bmod (t.finds k) (2 ^ 32) ∧
      (P.itemMaxAccessCount ≠ 0 → t.finds k < P.itemMaxAccessCount))
    {x : Nat} (count : c.itemCount = plus x 1) (below : x ≤ P.maxItemCount)
    (length : P.maxItemCount + 1 < 2 ^ 64 → full.length ≤ x + 1) :
    ∃ c' l', c.evictIfNeeded P = some c' ∧ Recent P { t with cache := c' } l' ∧
      (c'.hashmap.keys = c.hashmap.keys ∨ ∃ y ∈ c.hashmap.keys, (∀ z ∈ c.hashmap.keys, t.touched y ≤ t.touched z) ∧
        c'.hashmap.keys = c.hashmap.keys.erase y) := by
  obtain ⟨c', l', done, tracked', change, -⟩ := tracked.evictIfNeeded (P := P)
  rcases change with ⟨rfl, rfl, fits⟩ | ⟨s, needed, rfl, gone⟩
  · have small : c'.itemCount ≤ P.maxItemCount := by
      by_contra more
      exact some_ (fits ((needToEvict_iff plain).2 (Nat.not_le.1 more)))
    refine ⟨c', l', done, ⟨tracked', ordered, past, counted, small, fun wide => ?_⟩, .inl rfl⟩
    have := length wide
    simp only [count, plus]
    omega
  · rw [List.map_append] at ordered
    obtain ⟨ordered', -, oldest⟩ := List.pairwise_append.1 ordered
    have small : x < 2 ^ 64 := by
      have most := (needToEvict_iff plain).1 needed
      rw [count, plus] at most
      omega
    have count' : c'.itemCount = x := by rw [gone.itemCount, count, minus_plus small]
    refine ⟨c', l', done, ⟨tracked', ordered', past, fun k e held => ?_, count'.le.trans below, fun wide => ?_⟩,
      .inr ⟨s.2, ?_, fun z mem => ?_, ?_⟩⟩
    · rw [gone.hashmap] at held
      rcases eq_or_ne k s.2 with rfl | other
      · rw [Finmap.lookup_erase] at held
        cases held
      · rw [Finmap.lookup_erase_ne other] at held
        exact counted k e held
    · have := length wide
      rw [List.length_append, List.length_singleton] at this
      dsimp only
      omega
    · rw [Finmap.mem_keys, tracked.mem_keys]
      exact List.mem_map_of_mem (List.mem_append_right _ (List.mem_singleton_self _))
    · rw [Finmap.mem_keys, tracked.mem_keys, List.map_append] at mem
      rcases List.mem_append.1 mem with before | last
      · exact (oldest z before s.2 (List.mem_singleton_self _)).le
      · rw [List.mem_singleton.1 last]
    · rw [gone.hashmap, Finmap.keys_erase]

theorem Recent.of_placed (plain : Plain P) (recent : Recent P s l) {value : V} {a address : Nat} {now : Int}
    {c c' : Cache K V} {rest : List (Nat × K)} (node : s.cache.nodeOf k address = some (a, c))
    (count : c.itemCount = s.cache.itemCount) (done : c.place P a k value now = some c')
    (tracked : Tracked c' ((a, k) :: rest)) (placed : Placed P c c' a k value now)
    (ordered : Decreasing s.touched (rest.map Prod.snd)) (length : rest.length ≤ l.length)
    (counted : ∀ k' e, c'.hashmap.lookup k' = some e →
      e.accessCount = Int.bmod ((if k ∈ s.keys then s.finds else update s.finds k 0) k' : Nat) (2 ^ 32) ∧
      (P.itemMaxAccessCount ≠ 0 →
        (if k ∈ s.keys then s.finds else update s.finds k 0) k' < P.itemMaxAccessCount))
    (keys : c'.hashmap.keys = insert k s.keys) :
    ∃ s' l', s.apply P (.insert k value address now) = some s' ∧ Recent P s' l' ∧
      Leaves P s s' (.insert k value address now) := by
  have small : ¬ c.needToEvict P = true := by
    rw [needToEvict_iff plain, count]
    exact Nat.not_lt.2 recent.room.1
  have stays : c.evictIfNeeded P = some c := if_neg small
  have out : k ∉ rest.map Prod.snd := (List.nodup_cons.1 tracked.keys_nodup).1
  let t : Timed K V := ⟨c', s.time + 1, update s.touched k (s.time + 1),
    if k ∈ s.keys then s.finds else update s.finds k 0⟩
  have full : Decreasing t.touched (((a, k) :: rest).map Prod.snd) :=
    ordered.touch out fun k' => Nat.lt_succ_of_le (recent.past k')
  have room : P.maxItemCount + 1 < 2 ^ 64 → ((a, k) :: rest).length ≤ s.cache.itemCount + 1 := fun wide =>
    Nat.succ_le_succ (length.trans (recent.room.2 wide))
  obtain ⟨c'', l', evicted, recent', left⟩ := Recent.evictLast plain tracked (List.cons_ne_nil _ _) full
    (past_update recent.past k) counted (placed.itemCount.trans (by rw [count])) recent.room.1 room
  rw [keys] at left
  refine ⟨{ t with cache := c'' }, l', ?_, recent', left⟩
  simp [Timed.apply, insert_eq, node, stays, done, evicted, t]

theorem Recent.of_insert (plain : Plain P) (recent : Recent P s l) (k : K) (value : V) {address : Nat} (now : Int)
    (legal : address ∉ s.cache.heap) :
    ∃ s' l', s.apply P (.insert k value address now) = some s' ∧ Recent P s' l' ∧
      Leaves P s s' (.insert k value address now) := by
  by_cases there : k ∈ s.keys
  · have known := Finmap.mem_keys.1 there
    obtain ⟨e, found⟩ := Finmap.mem_iff.1 known
    have node : s.cache.nodeOf k address = some (e.node, s.cache) := by rw [Cache.nodeOf, found]
    obtain ⟨before, after, rfl⟩ := List.append_of_mem (recent.tracked.node k e found)
    obtain ⟨c', done, tracked, placed⟩ := recent.tracked.place_known (P := P) value now
    have hashmap : c'.hashmap = s.cache.hashmap := by rw [placed.hashmap, Cache.emplace, if_pos known]
    refine recent.of_placed plain node rfl done tracked placed ?_ ?_ ?_ ?_
    · refine recent.ordered.sublist (List.Sublist.map _ ?_)
      exact List.Sublist.append_left (List.sublist_cons_self ..) _
    · simp only [List.length_append, List.length_cons]
      omega
    · rw [hashmap, if_pos there]
      exact recent.counted
    · rw [hashmap, Finset.insert_eq_of_mem there, Timed.keys]
  · have new : k ∉ s.cache.hashmap := fun mem => there (Finmap.mem_keys.2 mem)
    obtain ⟨c, node, same, tracked, loose, payload⟩ := recent.tracked.nodeOf_new new legal
    have hashmap : c.hashmap = s.cache.hashmap := by rw [same]
    have key : (c.payload address).map Prod.fst = some k := by
      rw [payload, update_self]
      rfl
    obtain ⟨c', done, tracked', placed⟩ := tracked.place_new (P := P) loose key (hashmap ▸ new) value now
    have hashmap' : c'.hashmap = s.cache.hashmap.insert k ⟨value, address, 0, now⟩ := by
      rw [placed.hashmap, Cache.emplace, hashmap, if_neg new]
    refine recent.of_placed plain node (by rw [same]) done tracked' placed recent.ordered le_rfl ?_ ?_
    · rw [hashmap', if_neg there]
      intro k' e held
      rcases eq_or_ne k' k with rfl | other
      · rw [Finmap.lookup_insert] at held
        cases held
        rw [update_self]
        exact ⟨rfl, Nat.pos_of_ne_zero⟩
      · rw [Finmap.lookup_insert_of_ne _ other] at held
        rw [update_of_ne other]
        exact recent.counted k' e held
    · ext k'
      rw [hashmap', Finmap.mem_keys, Finmap.mem_insert, Finset.mem_insert, Timed.keys, Finmap.mem_keys]

end

theorem Recent.of_clear (recent : Recent P s l) : ∃ s' l', s.apply P .clear = some s' ∧ Recent P s' l' ∧
    Leaves P s s' .clear := by
  obtain ⟨c', cleared, tracked, hashmap, count, -⟩ := recent.tracked.clear
  refine ⟨{ s with cache := c', time := s.time + 1 }, [], by simp [Timed.apply, cleared],
    ⟨tracked, .nil, fun k => (recent.past k).trans (Nat.le_succ _), fun k e held => ?_, ?_, fun _ => ?_⟩, ?_⟩
  · rw [hashmap] at held
    cases held
  · exact count.le.trans (Nat.zero_le _)
  · exact Nat.zero_le _
  · exact (congrArg Finmap.keys hashmap).trans Finmap.keys_empty

theorem Recent.apply (plain : Plain P) (access : P.itemMaxAccessCount ≤ 2 ^ 31) (recent : Recent P s l) {op : Op K V}
    (legal : Legal s.cache op) : ∃ s' l', s.apply P op = some s' ∧ Recent P s' l' ∧ Leaves P s s' op := by
  cases op with
  | insert key value address now => exact recent.of_insert plain key value now legal
  | find key now now' upgraded =>
    obtain ⟨s', l', applied, recent', leaves, -⟩ := recent.of_find plain key (.inr (.inl access)) now now' upgraded
    exact ⟨s', l', applied, recent', leaves⟩
  | clear => exact recent.of_clear

theorem recent_initial (P : Config V) : Recent P (.initial K V) [] :=
  ⟨.empty, .nil, fun _ => le_rfl, fun k e held => by simp [Timed.initial, LRUCache.empty] at held, Nat.zero_le _,
    fun _ => le_rfl⟩

theorem recent_reachable (plain : Plain P) (access : P.itemMaxAccessCount ≤ 2 ^ 31) (reachable : TimedReachable P s) :
    ∃ l, Recent P s l := by
  refine Reachable.invariant (fun s => ∃ l, Recent P s l) ?_ ?_ reachable
  · rintro s rfl
    exact ⟨[], recent_initial P⟩
  · rintro s s' ⟨l, recent⟩ ⟨op, legal, applied⟩
    obtain ⟨s'', l', applied', recent', -⟩ := recent.apply plain access legal
    cases applied.symm.trans applied'
    exact ⟨l', recent'⟩

def InOrder (s : Timed K V) : Prop :=
  ∃ l : List (Nat × K), Ring s.cache.next s.cache.prev none (l.map fun x => some x.1) ∧
    (∀ x ∈ l, ∃ node, s.cache.heap.lookup x.1 = some node ∧ node.key = x.2) ∧
    (∀ k, k ∈ s.keys ↔ k ∈ l.map Prod.snd) ∧ (l.map Prod.snd).Nodup ∧ Decreasing s.touched (l.map Prod.snd)

theorem Recent.inOrder (recent : Recent P s l) : InOrder s := by
  refine ⟨l, ?_, fun x mem => ?_, fun k => recent.mem_keys, recent.tracked.keys_nodup, recent.ordered⟩
  · have ring := recent.tracked.listed.ring
    rwa [List.map_map] at ring
  · obtain ⟨node, found⟩ := exists_node (recent.tracked.listed.there x.1 (List.mem_map_of_mem mem))
    have key := recent.tracked.key x mem
    simp only [Cache.payload, found, Option.map_some, Option.some.injEq] at key
    exact ⟨node, found, key⟩

section
variable {k : K}

def early (limit : Nat) : Nat := max (2 ^ 31) (limit - (2 ^ 64 - 2 ^ 32))

theorem counts_early {limit n : Nat} (size : limit < 2 ^ 64) (few : n < early limit) : Counts limit n := by
  unfold early at few
  unfold Counts
  omega

theorem early_lt {limit : Nat} (large : 2 ^ 31 < limit) : early limit < limit := by
  unfold early
  omega

theorem found_often (plain : Plain P) (large : 2 ^ 31 < P.itemMaxAccessCount) (size : P.itemMaxAccessCount < 2 ^ 64)
    (k : K) (value : V) (n : Nat) (few : n < early P.itemMaxAccessCount) :
    ∃ (s : Timed K V) (l : List (Nat × K)), TimedReachable P s ∧ Recent P s l ∧ k ∈ s.keys ∧ s.finds k = n := by
  have below := early_lt large
  induction n with
  | zero =>
    have legal : 0 ∉ (Timed.initial K V).cache.heap := Finmap.notMem_empty
    have fresh : k ∉ (Timed.initial K V).cache.hashmap := Finmap.notMem_empty
    obtain ⟨s, l, applied, recent, -⟩ := (recent_initial P).of_insert plain k value 0 legal
    obtain ⟨c, -, inserted, -, there⟩ := (Accounted.empty P).insert fresh legal value 0
    have state := applied
    simp only [Timed.apply, show (Timed.initial K V).cache.insert P k value 0 0 = some c from inserted,
      Option.bind_eq_bind, Option.bind_some, Option.pure_def, Option.some.injEq] at state
    have absent : k ∉ (Timed.initial K V).keys := fun mem => fresh (Finmap.mem_keys.1 mem)
    rw [if_neg absent] at state
    refine ⟨s, l, .next (.initial rfl) (.op (.insert k value 0 0) legal applied), recent, ?_, ?_⟩
    · rw [← state]
      exact Finmap.mem_keys.2 (there plain.limit plain.noMemory)
    · rw [← state]
      exact update_self ..
  | succ n ih =>
    obtain ⟨s, l, reachable, recent, there, often⟩ := ih (Nat.lt_of_succ_lt few)
    have counts : Counts P.itemMaxAccessCount (s.finds k + 1) := counts_early size (often ▸ few)
    obtain ⟨s', l', applied, recent', leaves, finds⟩ := recent.of_find plain k counts 0 0 false
    refine ⟨s', l', reachable.next (.op (.find k 0 0 false) trivial applied), recent', ?_, ?_⟩
    · have keys : s'.keys = s.keys := leaves.trans (if_neg (by omega))
      rw [keys]
      exact there
    · rw [finds there, often]

theorem leaves_early (plain : Plain P) (large : 2 ^ 31 < P.itemMaxAccessCount) (size : P.itemMaxAccessCount < 2 ^ 64)
    (k : K) (value : V) : ∃ s s' : Timed K V, TimedReachable P s ∧ s.apply P (.find k 0 0 false) = some s' ∧
      ¬ Leaves P s s' (.find k 0 0 false) := by
  have below := early_lt large
  have some_ : 2 ^ 31 ≤ early P.itemMaxAccessCount := le_max_left ..
  obtain ⟨s, l, reachable, recent, there, often⟩ :=
    found_often plain large size k value (early P.itemMaxAccessCount - 1) (by omega)
  obtain ⟨e, found⟩ := Finmap.mem_iff.1 (Finmap.mem_keys.1 there)
  obtain ⟨before, after, rfl⟩ := List.append_of_mem (recent.tracked.node k e found)
  have next : s.finds k + 1 = early P.itemMaxAccessCount := by omega
  have count : e.touch.accessCount = Int.bmod (early P.itemMaxAccessCount) (2 ^ 32) := by
    rw [accessCount_touch, (recent.counted k e found).1, Int.bmod_add_bmod, ← next, Int.natCast_succ]
  have outdated : itemOutdated P e.touch.accessCount e.insertTimestampSec 0 = true := by
    have least : P.itemMaxAccessCount - (2 ^ 64 - 2 ^ 32) ≤ early P.itemMaxAccessCount := le_max_right ..
    have narrow : early P.itemMaxAccessCount < 2 ^ 32 := max_lt (by decide) (by omega)
    have limited : P.itemMaxAccessCount ≠ 0 := by omega
    rw [count, itemOutdated, bmod_large some_ narrow, decide_eq_true limited, Bool.true_and, Bool.or_eq_true,
      decide_eq_true_eq]
    left
    omega
  obtain ⟨c', done, -, gone⟩ := recent.tracked.find_evicts false found outdated outdated
  refine ⟨s, ⟨c', s.time + 1, s.touched, update s.finds k (s.finds k + 1)⟩, reachable, ?_, fun leaves => ?_⟩
  · simp [Timed.apply, done]
  · have stays : c'.hashmap.keys = s.keys := leaves.trans (if_neg (by omega))
    rw [← stays, gone.hashmap, Finmap.keys_erase] at there
    exact Finset.notMem_erase _ _ there

end

/-- The cache is in order in every run and every operation takes out what it may: an insertion the key that was touched
first, an access the key that has been found as often as it may. -/
theorem lru_order_iff [Inhabited K] [Inhabited V] (plain : Plain P) (size : P.itemMaxAccessCount < 2 ^ 64) :
    (∀ s : Timed K V, TimedReachable P s → InOrder s ∧
      ∀ op, Legal s.cache op → ∃ s', s.apply P op = some s' ∧ Leaves P s s' op) ↔ P.itemMaxAccessCount ≤ 2 ^ 31 := by
  constructor
  · intro always
    by_contra large
    obtain ⟨s, s', reachable, applied, wrong⟩ :=
      leaves_early plain (Nat.not_le.1 large) size (default : K) (default : V)
    obtain ⟨s'', applied', leaves⟩ := (always s reachable).2 (.find default 0 0 false) trivial
    cases applied.symm.trans applied'
    exact wrong leaves
  · intro access s reachable
    obtain ⟨l, recent⟩ := recent_reachable plain access reachable
    refine ⟨recent.inOrder, fun op legal => ?_⟩
    obtain ⟨s', l', applied, -, leaves⟩ := recent.apply plain access legal
    exact ⟨s', applied, leaves⟩

end

def threeAccesses : Config Nat := ⟨2, 0, 0, 3, fun _ => 8⟩

theorem lru_order_iff_three : threeAccesses.itemMaxAccessCount ≤ 2 ^ 31 ∧
    ∀ s : Timed Nat Nat, TimedReachable threeAccesses s → InOrder s ∧
      ∀ op, Legal s.cache op → ∃ s', s.apply threeAccesses op = some s' ∧ Leaves threeAccesses s s' op :=
  ⟨by decide, (lru_order_iff ⟨by decide, rfl, rfl⟩ (by decide)).2 (by decide)⟩

def manyAccesses : Config Nat := ⟨4, 0, 0, 2 ^ 31 + 1, fun _ => 8⟩

theorem access_limit_missed : ∃ s s' : Timed Nat Nat, TimedReachable manyAccesses s ∧
    s.apply manyAccesses (.find 1 0 0 false) = some s' ∧ ¬ Leaves manyAccesses s s' (.find 1 0 0 false) :=
  leaves_early ⟨by decide, rfl, rfl⟩ (by decide) (by decide) 1 5

end Prpc.LRUCache
