import Prpc.Thread.ChannelReplicator.Model

/-!
The code has positions in the ring only.
-/

namespace Prpc.ChannelReplicator
open Lib
open Function (update update_self update_of_ne update_eq_self)

variable {T : Type} {c : Setup} {s s' : State T} {items : List T} {low : Nat}

def Caching.held : Caching T → List T
  | .locking t => [t]
  | .waiting t => [t]
  | _ => []

def Replicating.held : Replicating T → List T
  | .writing t => [t]
  | _ => []

@[simp] theorem Caching.held_notify (pc : Caching T) : pc.notify.held = pc.held := by
  cases pc <;> rfl

@[simp] theorem Replicating.held_notify (pc : Replicating T) : pc.notify.held = pc.held := by
  cases pc <;> rfl

theorem Caching.notify_ne_waiting (pc : Caching T) (t : T) : pc.notify ≠ .waiting t := by
  cases pc <;> simp [Caching.notify]

def State.progress (s : State T) (i : Nat) : Nat := (s.written i).length + (s.replicating i).held.length

def State.stored (s : State T) : Nat := s.received.length - s.caching.held.length

def Starting.count : Starting → Nat
  | .startReplicating i => i
  | _ => 0

def Starting.opened : Starting → Bool
  | .startCaching => false
  | .setOpen => false
  | _ => true

def Starting.resized : Starting → Bool
  | .startReplicating _ => true
  | _ => false

structure Ring (c : Setup) (s : State T) (items : List T) (low : Nat) : Prop where
  size : s.dataCache.length = c.cacheSize + 1
  end_ : s.end_ = items.length % (c.cacheSize + 1)
  begin_ : s.begin_ = low % (c.cacheSize + 1)
  room : items.length ≤ low + c.cacheSize
  slots : ∀ j, low ≤ j → j < items.length → s.dataCache[j % (c.cacheSize + 1)]? = items[j]?

structure Readers (c : Setup) (s : State T) (items : List T) (low : Nat) : Prop where
  copies : ∀ i, s.written i ++ (s.replicating i).held = items.take (s.progress i)
  range : ∀ i < c.outputs, low ≤ s.progress i ∧ s.progress i ≤ items.length
  slowest : ∃ i < c.outputs, s.progress i = low
  positions : s.starting.resized = true →
    s.readPos = (List.range c.outputs).map fun i => s.progress i % (c.cacheSize + 1)

structure Threads (c : Setup) (s : State T) (items : List T) (low : Nat) : Prop where
  received : s.received = items ++ s.caching.held
  waiting : ∀ t, s.caching = .waiting t → items.length = low + c.cacheSize
  count_le : s.starting.count ≤ c.outputs
  not_resized : s.starting.resized = false → s.readPos = []
  not_started : ∀ i, s.starting.count ≤ i → s.replicating i = .notStarted ∧ s.written i = []
  first : s.starting = .startCaching → s.caching = .notStarted
  closed : s.starting.opened = true → s.cachingClosed = true → s.caching = .returned
  ended : s.caching = .closing ∨ s.caching = .returned → s.inputClosed = true ∧ s.input = []
  returned : ∀ i, s.replicating i = .returned → s.caching = .returned ∧ s.written i = items

structure Inv (c : Setup) (s : State T) (items : List T) (low : Nat) : Prop where
  ring : Ring c s items low
  readers : Readers c s items low
  threads : Threads c s items low

theorem inv_initial [Inhabited T] (c : Setup) : Inv c (initial c : State T) [] 0 := by
  have two := c.two_le
  refine ⟨⟨by simp [initial], rfl, rfl, Nat.zero_le _, ?_⟩, ⟨?_, ?_, ⟨0, by omega, rfl⟩, ?_⟩, ⟨rfl, ?_, Nat.zero_le _, ?_, ?_, ?_, ?_, ?_, ?_⟩⟩
  · intro j _ lt
    cases lt
  · exact fun i => rfl
  · exact fun i _ => ⟨Nat.le_refl _, Nat.le_refl _⟩
  · intro resized
    cases resized
  · intro t waiting
    cases waiting
  · exact fun _ => rfl
  · exact fun i _ => ⟨rfl, rfl⟩
  · exact fun _ => rfl
  · intro opened
    cases opened
  · rintro (ended | ended) <;> cases ended
  · intro i returned
    cases returned

theorem Readers.congr (readers : Readers c s items low) (written : s'.written = s.written)
    (held : ∀ i, (s'.replicating i).held = (s.replicating i).held) (readPos : s'.readPos = s.readPos)
    (resized : s'.starting.resized = s.starting.resized) : Readers c s' items low := by
  have progress : s'.progress = s.progress := by
    funext i
    rw [State.progress, State.progress, written, held]
  refine ⟨fun i => ?_, ?_, ?_, ?_⟩
  · rw [written, held, progress]
    exact readers.copies i
  · rw [progress]
    exact readers.range
  · rw [progress]
    exact readers.slowest
  · rw [progress, readPos, resized]
    exact readers.positions

theorem held_setReplicating (s : State T) (i : Nat) (pc : Replicating T)
    (same : pc.held = (s.replicating i).held) (j : Nat) :
    ((s.setReplicating i pc).replicating j).held = (s.replicating j).held := by
  rcases eq_or_ne j i with rfl | other
  · simp [State.setReplicating, same]
  · simp [State.setReplicating, update_of_ne other]

variable {pc : Replicating T}

theorem Replicating.notify_eq_notStarted : pc.notify = .notStarted ↔ pc = .notStarted := by
  cases pc <;> simp [Replicating.notify]

theorem Replicating.notify_eq_returned : pc.notify = .returned ↔ pc = .returned := by
  cases pc <;> simp [Replicating.notify]

theorem Threads.move {items' : List T} {low' : Nat} (threads : Threads c s items low)
    (started : s.caching ≠ .notStarted) (running : s.caching ≠ .returned)
    (starting : s'.starting = s.starting) (closed : s'.cachingClosed = s.cachingClosed)
    (readPos : s'.readPos = s.readPos) (written : s'.written = s.written)
    (replicating : ∀ i, s'.replicating i = s.replicating i ∨ s'.replicating i = (s.replicating i).notify)
    (received : s'.received = items' ++ s'.caching.held)
    (waiting : ∀ t, s'.caching = .waiting t → items'.length = low' + c.cacheSize)
    (ended : s'.caching = .closing ∨ s'.caching = .returned → s'.inputClosed = true ∧ s'.input = []) :
    Threads c s' items' low' := by
  refine ⟨received, waiting, ?_, ?_, fun i after => ?_, fun first => ?_, fun opened closed' => ?_, ended,
    fun i returned => ?_⟩
  · rw [starting]
    exact threads.count_le
  · rw [starting, readPos]
    exact threads.not_resized
  · rw [starting] at after
    obtain ⟨not_started, nothing⟩ := threads.not_started i after
    rw [written]
    refine ⟨?_, nothing⟩
    rcases replicating i with same | notified
    · rw [same, not_started]
    · rw [notified, not_started]
      rfl
  · rw [starting] at first
    exact absurd (threads.first first) started
  · rw [starting] at opened
    rw [closed] at closed'
    exact absurd (threads.closed opened closed') running
  · have before : s.replicating i = .returned := by
      rcases replicating i with same | notified
      · rw [← same, returned]
      · rw [returned] at notified
        exact Replicating.notify_eq_returned.mp notified.symm
    exact absurd (threads.returned i before).1 running

theorem Inv.read (inv : Inv c s items low) (done : s.read = some s') : Inv c s' items low := by
  obtain ⟨ring, readers, threads⟩ := inv
  have received := threads.received
  rw [State.read] at done
  split at done
  · rename_i t input reading queue
    cases done
    rw [reading] at received
    refine ⟨⟨ring.size, ring.end_, ring.begin_, ring.room, ring.slots⟩,
      readers.congr rfl (fun _ => rfl) rfl rfl, ?_⟩
    refine threads.move (by simp [reading]) (by simp [reading]) rfl rfl rfl rfl (fun _ => .inl rfl) ?_
      (by simp) (by simp)
    rw [received]
    simp [Caching.held]
  · rename_i reading queue
    split at done
    · rename_i closed
      cases done
      rw [reading] at received
      refine ⟨⟨ring.size, ring.end_, ring.begin_, ring.room, ring.slots⟩,
        readers.congr rfl (fun _ => rfl) rfl rfl, ?_⟩
      exact threads.move (by simp [reading]) (by simp [reading]) rfl rfl rfl rfl (fun _ => .inl rfl) received
        (by simp) (fun _ => ⟨closed, queue⟩)
    · cases done
  · cases done

theorem Ring.size_eq (ring : Ring c s items low) (le : low ≤ items.length) : s.size = items.length - low := by
  rw [State.size, ring.size, ring.end_, ring.begin_]
  exact ringOffset_mod le (by have := ring.room; omega)

theorem Ring.full_iff (ring : Ring c s items low) (le : low ≤ items.length) :
    s.full ↔ items.length = low + c.cacheSize := by
  have room := ring.room
  rw [State.full, ring.size_eq le, ring.size]
  omega

theorem Readers.low_le (readers : Readers c s items low) : low ≤ items.length := by
  obtain ⟨i, lt, -⟩ := readers.slowest
  have := readers.range i lt
  omega

theorem Ring.store (ring : Ring c s items low) (room : items.length < low + c.cacheSize) (t : T)
    (cache : s'.dataCache = s.dataCache.set s.end_ t) (end_ : s'.end_ = s.advancePos s.end_)
    (begin_ : s'.begin_ = s.begin_) : Ring c s' (items ++ [t]) low := by
  refine ⟨?_, ?_, ?_, ?_, fun j le lt => ?_⟩
  · rw [cache, List.length_set, ring.size]
  · rw [end_, State.advancePos, ring.size, ring.end_, succ_mod, List.length_append]
    rfl
  · rw [begin_, ring.begin_]
  · rw [List.length_append]
    exact room
  · rw [List.length_append, List.length_singleton] at lt
    have small := Nat.mod_lt items.length (Nat.succ_pos c.cacheSize)
    rw [cache, ring.end_]
    rcases Nat.lt_or_eq_of_le (Nat.lt_succ_iff.mp lt) with before | rfl
    · have other : items.length % (c.cacheSize + 1) ≠ j % (c.cacheSize + 1) := fun same =>
        Nat.ne_of_lt before ((mod_eq_iff_of_near (Nat.le_of_lt before) (by omega)).mp same.symm)
      rw [List.getElem?_set_ne other, ring.slots j le before, List.getElem?_append_left before]
    · rw [List.getElem?_set_self (by rw [ring.size]; exact small), List.getElem?_concat_length]

theorem Readers.store (readers : Readers c s items low) (t : T) : Readers c s (items ++ [t]) low := by
  refine ⟨fun i => ?_, fun i lt => ?_, readers.slowest, readers.positions⟩
  · have copies := readers.copies i
    have length := congrArg List.length copies
    rw [List.length_append, ← State.progress, List.length_take] at length
    rw [copies, List.take_append_of_le_length (by omega)]
  · have := readers.range i lt
    rw [List.length_append]
    omega

theorem Inv.cache (inv : Inv c s items low) (done : s.cache = some s') : ∃ items', Inv c s' items' low := by
  obtain ⟨ring, readers, threads⟩ := inv
  have received := threads.received
  have full_iff := ring.full_iff readers.low_le
  have room := ring.room
  rw [State.cache] at done
  split at done
  · rename_i t locking
    rw [locking] at received
    split at done
    · rename_i full
      cases done
      refine ⟨items, ⟨ring.size, ring.end_, ring.begin_, ring.room, ring.slots⟩,
        readers.congr rfl (fun _ => rfl) rfl rfl, ?_⟩
      exact threads.move (by simp [locking]) (by simp [locking]) rfl rfl rfl rfl (fun _ => .inl rfl) received
        (fun _ _ => full_iff.mp full) (by simp)
    · rename_i more
      cases done
      rw [full_iff] at more
      refine ⟨items ++ [t], ring.store (by omega) t rfl rfl rfl,
        (readers.store t).congr rfl (fun i => Replicating.held_notify _) rfl rfl, ?_⟩
      refine threads.move (by simp [locking]) (by simp [locking]) rfl rfl rfl rfl (fun _ => .inr rfl) ?_
        (fun t waiting => (by cases waiting)) (fun ended => by rcases ended with ended | ended <;> cases ended)
      simpa [State.notifyAll, Caching.held] using received
  · rename_i closing
    cases done
    rw [closing] at received
    refine ⟨items, ⟨ring.size, ring.end_, ring.begin_, ring.room, ring.slots⟩,
      readers.congr rfl (fun i => Replicating.held_notify _) rfl rfl, ?_⟩
    refine ⟨received, fun t waiting => (by cases waiting), threads.count_le, threads.not_resized,
      fun i after => ?_, fun first => ?_, fun _ _ => rfl, fun _ => threads.ended (.inl closing), fun i returned => ?_⟩
    · obtain ⟨not_started, nothing⟩ := threads.not_started i after
      exact ⟨Replicating.notify_eq_notStarted.mpr not_started, nothing⟩
    · have := threads.first first
      rw [closing] at this
      cases this
    · have := (threads.returned i (Replicating.notify_eq_returned.mp returned)).1
      rw [closing] at this
      cases this
  · cases done

variable {i : Nat}

theorem Threads.started (threads : Threads c s items low) (started : s.replicating i ≠ .notStarted) :
    i < c.outputs ∧ s.starting.resized = true ∧ s.starting.opened = true := by
  have lt : i < s.starting.count := by
    by_contra after
    exact started (threads.not_started i (Nat.le_of_not_lt after)).1
  refine ⟨Nat.lt_of_lt_of_le lt threads.count_le, ?_⟩
  cases starting : s.starting with
  | startReplicating i => exact ⟨rfl, rfl⟩
  | _ =>
    rw [starting] at lt
    cases lt

theorem Threads.setReplicating (threads : Threads c s items low)
    (started : s.replicating i ≠ .notStarted)
    (returned : pc = .returned → s.caching = .returned ∧ s.written i = items) :
    Threads c (s.setReplicating i pc) items low := by
  refine ⟨threads.received, threads.waiting, threads.count_le, threads.not_resized, fun j after => ?_,
    threads.first, threads.closed, threads.ended, fun j returned' => ?_⟩
  · obtain ⟨not_started, nothing⟩ := threads.not_started j after
    have other : j ≠ i := by
      rintro rfl
      exact started not_started
    exact ⟨by simpa [State.setReplicating, update_of_ne other] using not_started, nothing⟩
  · rcases eq_or_ne j i with rfl | other
    · simp only [State.setReplicating, update_self] at returned'
      exact returned returned'
    · simp only [State.setReplicating, update_of_ne other] at returned'
      exact threads.returned j returned'

theorem set_map_range (f : Nat → Nat) (k i v : Nat) :
    ((List.range k).map f).set i v = (List.range k).map (update f i v) := by
  refine List.ext_getElem? fun j => ?_
  rw [List.getElem?_set]
  rcases eq_or_ne i j with rfl | other
  · by_cases lt : i < k <;> simp [lt]
  · simp only [other, if_false, List.getElem?_map]
    by_cases lt : j < k
    · simp [lt, update_of_ne other.symm]
    · simp [lt]

theorem moveBegin_spec {n k i : Nat} {p : Nat → Nat} (size : s.dataCache.length = n)
    (begin_ : s.begin_ = low % n) (positions : s.readPos = (List.range k).map fun j => p j % n)
    (range : ∀ j < k, low ≤ p j ∧ p j < low + n) (lt : i < k) : ∃ low', low ≤ low' ∧
    (∀ j < k, low' ≤ p j) ∧ (∃ j < k, p j = low') ∧
    s.moveBegin (s.minPos (p i % n)) =
      { s with begin_ := low' % n, caching := if low < low' then s.caching.notify else s.caching } := by
  have within : ∀ q ∈ p i :: (List.range k).map p, low ≤ q ∧ q < low + n := by
    intro q mem
    simp only [List.mem_cons, List.mem_map, List.mem_range] at mem
    rcases mem with rfl | ⟨j, lt', rfl⟩
    · exact range i lt
    · exact range j lt'
  obtain ⟨low', mem, first, least⟩ := ringFirst_mod (p i) ((List.range k).map p) within
  have min_eq : s.minPos (p i % n) = low' % n := by
    rw [← first, List.map_map, ← begin_, ← size]
    rw [← size] at positions
    rw [State.minPos, positions]
    rfl
  have low'_range := within low' mem
  have front : s.frontOf s.begin_ (low' % n) ↔ low < low' := by
    rw [State.frontOf, size, begin_]
    have here : ringOffset n (low % n) (low % n) = low - low := ringOffset_mod (Nat.le_refl _) (by omega)
    have there : ringOffset n (low % n) (low' % n) = low' - low := ringOffset_mod low'_range.1 low'_range.2
    rw [ringOffset] at here there
    rw [here, there]
    omega
  refine ⟨low', low'_range.1, fun j lt' => least (p j) (by simp; exact .inr ⟨j, lt', rfl⟩), ?_, ?_⟩
  · simp only [List.mem_cons, List.mem_map, List.mem_range] at mem
    rcases mem with rfl | ⟨j, lt', rfl⟩
    · exact ⟨i, lt, rfl⟩
    · exact ⟨j, lt', rfl⟩
  · rw [min_eq, State.moveBegin]
    split
    · rename_i moves
      rw [if_pos (front.mp moves)]
      rfl
    · rename_i stays
      rw [front] at stays
      rw [if_neg stays, show low' = low by omega, ← begin_]

theorem Threads.follow (threads : Threads c s items low) (resized : s.starting.resized = true) {low' : Nat}
    (le : low ≤ low') (readPos : List Nat) (begin_ : Nat) : Threads c { s with
      readPos := readPos, begin_ := begin_
      caching := if low < low' then s.caching.notify else s.caching } items low' := by
  have held : (if low < low' then s.caching.notify else s.caching).held = s.caching.held := by
    split
    · exact Caching.held_notify _
    · rfl
  have same : ∀ pc, pc = Caching.closing ∨ pc = Caching.returned ∨ pc = Caching.notStarted →
      ((if low < low' then s.caching.notify else s.caching) = pc ↔ s.caching = pc) := by
    intro pc kind
    split
    · rcases kind with rfl | rfl | rfl <;> cases s.caching <;> simp [Caching.notify]
    · rfl
  refine ⟨?_, fun t waiting => ?_, threads.count_le, fun not_resized => ?_, threads.not_started, fun first => ?_,
    fun opened closed => ?_, fun ended => threads.ended ?_, fun j returned => ?_⟩
  · simpa only [held] using threads.received
  · by_cases moves : low < low'
    · simp only [moves, if_true] at waiting
      exact absurd waiting (Caching.notify_ne_waiting _ _)
    · simp only [moves, if_false] at waiting
      rw [threads.waiting t waiting, show low' = low by omega]
  · rw [resized] at not_resized
    cases not_resized
  · exact (same _ (by simp)).mpr (threads.first first)
  · exact (same _ (by simp)).mpr (threads.closed opened closed)
  · simpa only [same .closing (by simp), same .returned (by simp)] using ended
  · obtain ⟨caching, all⟩ := threads.returned j returned
    exact ⟨(same _ (by simp)).mpr caching, all⟩

section
variable (inv : Inv c s items low)
include inv

theorem Inv.copied {t : T} (locking : s.replicating i = .locking)
    (item : items[s.progress i]? = some t) :
    ∃ low', Inv c (s.copied i (s.progress i % (c.cacheSize + 1)) t) items low' := by
  obtain ⟨ring, readers, threads⟩ := inv
  obtain ⟨lt, resized, -⟩ := threads.started (i := i) (by simp [locking])
  have more : s.progress i < items.length := (List.getElem?_eq_some_iff.mp item).1
  have room := ring.room
  -- the positions after the step
  let p := update s.progress i (s.progress i + 1)
  have p_range : ∀ j < c.outputs, low ≤ p j ∧ p j ≤ items.length := by
    intro j lt'
    have := readers.range j lt'
    rcases eq_or_ne j i with rfl | other
    · simp only [p, update_self]
      omega
    · simpa only [p, update_of_ne other] using this
  let s₁ := { s with readPos := s.readPos.set i (s.advancePos (s.progress i % (c.cacheSize + 1))) }
  have own : s.advancePos (s.progress i % (c.cacheSize + 1)) = p i % (c.cacheSize + 1) := by
    simp [State.advancePos, ring.size, succ_mod, p, update_self]
  have positions : s₁.readPos = (List.range c.outputs).map fun j => p j % (c.cacheSize + 1) := by
    simp only [s₁, readers.positions resized, set_map_range, own]
    refine List.map_congr_left fun j _ => ?_
    rcases eq_or_ne j i with rfl | other
    · simp
    · simp [p, update_of_ne other]
  obtain ⟨low', le, below, least, moved⟩ := moveBegin_spec (s := s₁) ring.size ring.begin_ positions
    (fun j lt' => by have := p_range j lt'; omega) lt
  have eq : s.copied i (s.progress i % (c.cacheSize + 1)) t = State.setReplicating { s₁ with
      begin_ := low' % (c.cacheSize + 1)
      caching := if low < low' then s₁.caching.notify else s₁.caching } i (.writing t) := by
    rw [← moved, ← own]
    rfl
  have progress : (s.copied i (s.progress i % (c.cacheSize + 1)) t).progress = p := by
    funext j
    rw [eq]
    rcases eq_or_ne j i with rfl | other
    · simp [State.progress, State.setReplicating, Replicating.held, p, s₁, locking]
    · simp [State.progress, State.setReplicating, update_of_ne other, p, s₁]
  refine ⟨low', ?_, ⟨fun j => ?_, fun j lt' => ?_, ?_, fun _ => ?_⟩, ?_⟩
  · rw [eq]
    exact ⟨ring.size, ring.end_, rfl, by omega, fun j le' => ring.slots j (by omega)⟩
  · have copies := readers.copies j
    rw [progress, eq]
    rcases eq_or_ne j i with rfl | other
    · rw [locking] at copies
      simp only [Replicating.held, List.append_nil] at copies
      simp only [State.setReplicating, update_self, Replicating.held, s₁, p, copies]
      rw [List.take_add_one, item]
      rfl
    · simpa [State.setReplicating, update_of_ne other, s₁, p] using copies
  · rw [progress]
    exact ⟨below j lt', (p_range j lt').2⟩
  · rw [progress]
    exact least
  · rw [progress, eq]
    exact positions
  · rw [eq]
    exact (threads.follow resized le _ _).setReplicating (by simp [locking]) (by simp)

theorem Inv.replicate (done : s.replicate i = some s') : ∃ low', Inv c s' items low' := by
  obtain ⟨ring, readers, threads⟩ := inv
  rw [State.replicate] at done
  split at done
  · rename_i pos locking at_
    obtain ⟨lt, resized, opened⟩ := threads.started (i := i) (by simp [locking])
    have range := readers.range i lt
    have room := ring.room
    have pos_eq : pos = s.progress i % (c.cacheSize + 1) := by
      rw [readers.positions resized, List.getElem?_map, List.getElem?_range lt] at at_
      exact (Option.some.inj at_).symm
    have end_iff : pos = s.end_ ↔ s.progress i = items.length := by
      rw [pos_eq, ring.end_]
      exact mod_eq_iff_of_near range.2 (by omega)
    split at done
    · rename_i at_end
      cases done
      rw [end_iff] at at_end
      refine ⟨low, ⟨ring.size, ring.end_, ring.begin_, ring.room, ring.slots⟩,
        readers.congr rfl (held_setReplicating s i _ ?_) rfl rfl,
        threads.setReplicating (by simp [locking]) fun returned => ?_⟩
      · rw [locking]
        split <;> rfl
      · split at returned
        · rename_i closed
          have copies := readers.copies i
          rw [locking, at_end, List.take_length] at copies
          simp only [Replicating.held, List.append_nil] at copies
          exact ⟨threads.closed opened closed, copies⟩
        · cases returned
    · rename_i before_end
      rw [end_iff] at before_end
      obtain ⟨t, cell, eq⟩ := Option.map_eq_some_iff.mp done
      rw [pos_eq, ring.slots _ range.1 (by omega)] at cell
      rw [← eq, pos_eq]
      exact Inv.copied ⟨ring, readers, threads⟩ locking cell
  · cases done

theorem Inv.write (done : s.write i = some s') : Inv c s' items low := by
  obtain ⟨ring, readers, threads⟩ := inv
  rw [State.write] at done
  split at done
  · rename_i t writing
    cases done
    let s₁ := { s with written := update s.written i (s.written i ++ [t]) }
    have progress : (s₁.setReplicating i .locking).progress = s.progress := by
      funext j
      rcases eq_or_ne j i with rfl | other
      · simp [State.progress, State.setReplicating, s₁, writing, Replicating.held]
      · simp [State.progress, State.setReplicating, s₁, update_of_ne other]
    refine ⟨⟨ring.size, ring.end_, ring.begin_, ring.room, ring.slots⟩, ⟨fun j => ?_, ?_, ?_, ?_⟩, ?_⟩
    · have copies := readers.copies j
      rw [progress]
      rcases eq_or_ne j i with rfl | other
      · simpa [State.setReplicating, s₁, writing, Replicating.held] using copies
      · simpa [State.setReplicating, s₁, update_of_ne other] using copies
    · rw [progress]
      exact readers.range
    · rw [progress]
      exact readers.slowest
    · rw [progress]
      exact readers.positions
    · have started : s₁.replicating i ≠ .notStarted := by simp [s₁, writing]
      refine Threads.setReplicating (s := s₁) ?_ started (by simp)
      refine ⟨threads.received, threads.waiting, threads.count_le, threads.not_resized, fun j after => ?_,
        threads.first, threads.closed, threads.ended, fun j returned => ?_⟩
      · obtain ⟨not_started, nothing⟩ := threads.not_started j after
        have other : j ≠ i := by
          rintro rfl
          exact started not_started
        exact ⟨not_started, by simpa [s₁, update_of_ne other] using nothing⟩
      · obtain ⟨caching, all⟩ := threads.returned j returned
        have other : j ≠ i := by
          rintro rfl
          rw [writing] at returned
          cases returned
        exact ⟨caching, by simpa [s₁, update_of_ne other] using all⟩
  · cases done

theorem Inv.start (done : s.start c = some s') : Inv c s' items low := by
  obtain ⟨ring, readers, threads⟩ := inv
  have ring' : ∀ s' : State T, s'.dataCache = s.dataCache → s'.end_ = s.end_ → s'.begin_ = s.begin_ →
      Ring c s' items low := by
    rintro s' cache end_ begin_
    exact ⟨cache ▸ ring.size, end_ ▸ ring.end_, begin_ ▸ ring.begin_, ring.room, cache ▸ ring.slots⟩
  rw [State.start] at done
  split at done
  · rename_i starting
    cases done
    have not_started := threads.first starting
    have received := threads.received
    rw [not_started] at received
    refine ⟨ring' _ rfl rfl rfl, readers.congr rfl (fun _ => rfl) rfl (by rw [starting]; rfl), received,
      fun t waiting => (by cases waiting), Nat.zero_le _, fun _ => threads.not_resized (by rw [starting]; rfl),
      fun i _ => threads.not_started i (by rw [starting]; exact Nat.zero_le _), fun first => (by cases first),
      fun opened => (by cases opened), fun ended => (by rcases ended with ended | ended <;> cases ended),
      fun i returned => ?_⟩
    have := (threads.not_started i (by rw [starting]; exact Nat.zero_le _)).1
    rw [this] at returned
    cases returned
  · rename_i starting
    cases done
    have none_started : ∀ i, s.replicating i = .notStarted ∧ s.written i = [] := fun i =>
      threads.not_started i (by rw [starting]; exact Nat.zero_le _)
    refine ⟨ring' _ rfl rfl rfl, readers.congr rfl (fun _ => rfl) rfl (by rw [starting]; rfl), threads.received,
      threads.waiting, Nat.zero_le _, fun _ => threads.not_resized (by rw [starting]; rfl),
      fun i _ => none_started i, fun first => (by cases first), fun _ closed => (by cases closed),
      threads.ended, threads.returned⟩
  · rename_i starting
    cases done
    have none_started : ∀ i, s.replicating i = .notStarted ∧ s.written i = [] := fun i =>
      threads.not_started i (by rw [starting]; exact Nat.zero_le _)
    have progress : ∀ i, s.progress i = 0 := by
      intro i
      simp [State.progress, none_started i, Replicating.held]
    refine ⟨ring' _ rfl rfl rfl, ⟨readers.copies, readers.range, readers.slowest, fun _ => ?_⟩, threads.received,
      threads.waiting, Nat.zero_le _, fun resized => (by cases resized), fun i _ => none_started i,
      fun first => (by cases first), fun _ => threads.closed (by rw [starting]; rfl), threads.ended, threads.returned⟩
    have zero : (fun i => s.progress i % (c.cacheSize + 1)) = fun _ => 0 := by
      funext i
      rw [progress, Nat.zero_mod]
    change List.replicate c.outputs 0 = (List.range c.outputs).map fun i => s.progress i % (c.cacheSize + 1)
    rw [zero, List.map_const', List.length_range]
  · rename_i i starting
    split at done
    · rename_i lt
      cases done
      have not_started := threads.not_started i (by rw [starting]; exact Nat.le_refl _)
      refine ⟨ring' _ rfl rfl rfl, readers.congr rfl (held_setReplicating _ i _ ?_) rfl (by rw [starting]; rfl), ?_⟩
      · simp [not_started.1, Replicating.held]
      · refine ⟨threads.received, threads.waiting, lt, fun resized => (by cases resized), fun j after => ?_,
          fun first => (by cases first), fun _ => threads.closed (by rw [starting]; rfl), threads.ended,
          fun j returned => ?_⟩
        · have after : i + 1 ≤ j := after
          have other : j ≠ i := by omega
          simp only [State.setReplicating, update_of_ne other]
          exact threads.not_started j (by rw [starting]; exact Nat.le_of_lt after)
        · rcases eq_or_ne j i with rfl | other
          · simp [State.setReplicating] at returned
          · simp only [State.setReplicating, update_of_ne other] at returned
            exact threads.returned j returned
    · cases done

theorem Inv.step {a : Action T} (done : act c s a = some s') : ∃ items' low', Inv c s' items' low' := by
  cases a with
  | send t =>
    rw [act] at done
    split at done
    · cases done
    · rename_i open_
      cases done
      obtain ⟨ring, readers, threads⟩ := inv
      refine ⟨items, low, ⟨ring.size, ring.end_, ring.begin_, ring.room, ring.slots⟩,
        readers.congr rfl (fun _ => rfl) rfl rfl, threads.received, threads.waiting, threads.count_le,
        threads.not_resized, threads.not_started, threads.first, threads.closed, fun ended => ?_,
        threads.returned⟩
      exact absurd (threads.ended ended).1 open_
  | close =>
    cases done
    obtain ⟨ring, readers, threads⟩ := inv
    exact ⟨items, low, ⟨ring.size, ring.end_, ring.begin_, ring.room, ring.slots⟩,
      readers.congr rfl (fun _ => rfl) rfl rfl, threads.received, threads.waiting, threads.count_le,
      threads.not_resized, threads.not_started, threads.first, threads.closed,
      fun ended => ⟨rfl, (threads.ended ended).2⟩, threads.returned⟩
  | start => exact ⟨items, low, inv.start done⟩
  | read => exact ⟨items, low, inv.read done⟩
  | cache =>
    obtain ⟨items', inv'⟩ := inv.cache done
    exact ⟨items', low, inv'⟩
  | replicate i =>
    obtain ⟨low', inv'⟩ := inv.replicate done
    exact ⟨items, low', inv'⟩
  | write i => exact ⟨items, low, inv.write done⟩
  | wakeCaching =>
    cases done
    obtain ⟨ring, readers, threads⟩ := inv
    refine ⟨items, low, ⟨ring.size, ring.end_, ring.begin_, ring.room, ring.slots⟩,
      readers.congr rfl (fun _ => rfl) rfl rfl, ?_⟩
    cases waits : s.caching with
    | waiting t =>
      refine threads.move (by simp [waits]) (by simp [waits]) rfl rfl rfl rfl (fun _ => .inl rfl) ?_ ?_ ?_
      · simpa [State.notifyOne] using threads.received
      · exact fun t waiting => absurd waiting (Caching.notify_ne_waiting _ _)
      · simp [State.notifyOne, waits, Caching.notify]
    | _ =>
      have same : s.notifyOne = s := by
        cases s
        simp_all [State.notifyOne, Caching.notify]
      rw [same]
      exact threads
  | wakeReplicating i =>
    cases done
    obtain ⟨ring, readers, threads⟩ := inv
    refine ⟨items, low, ⟨ring.size, ring.end_, ring.begin_, ring.room, ring.slots⟩,
      readers.congr rfl (held_setReplicating s i _ (Replicating.held_notify _)) rfl rfl, ?_⟩
    by_cases started : s.replicating i = .notStarted
    · have same : (s.replicating i).notify = s.replicating i := by
        rw [started]
        rfl
      rw [same, State.setReplicating, update_eq_self]
      exact threads
    · exact threads.setReplicating started fun returned =>
        threads.returned i (Replicating.notify_eq_returned.mp returned)

end

theorem inv_of_reachable [Inhabited T] (reachable : ReplicatorReachable c s) : ∃ items low, Inv c s items low := by
  refine Reachable.invariant (fun s => ∃ items low, Inv c s items low) ?_ ?_ reachable
  · rintro s rfl
    exact ⟨[], 0, inv_initial c⟩
  · rintro s s' ⟨items, low, inv⟩ ⟨a, done⟩
    exact inv.step done

def State.pos (s : State T) (i : Nat) : Nat := s.readPos.getD i 0

section
variable (inv : Inv c s items low)
include inv

theorem Inv.stored_eq : s.stored = items.length := by
  rw [State.stored, inv.threads.received, List.length_append, Nat.add_sub_cancel]

theorem Inv.received_get {j : Nat} (lt : j < items.length) : s.received[j]? = items[j]? := by
  rw [inv.threads.received, List.getElem?_append_left lt]

theorem Inv.pos_eq (lt : i < c.outputs) : s.pos i = s.progress i % (c.cacheSize + 1) := by
  cases resized : s.starting.resized with
  | true =>
    rw [State.pos, inv.readers.positions resized, List.getD_eq_getElem?_getD, List.getElem?_map,
      List.getElem?_range lt]
    rfl
  | false =>
    have count : s.starting.count = 0 := by
      cases starting : s.starting with
      | startReplicating i =>
        rw [starting] at resized
        cases resized
      | _ => rfl
    obtain ⟨not_started, nothing⟩ := inv.threads.not_started i (by omega)
    rw [State.pos, inv.threads.not_resized resized, State.progress, not_started, nothing]
    rfl

theorem Inv.overwrites {a : Action T} (done : act c s a = some s') {slot : Nat}
    (changed : s'.dataCache[slot]? ≠ s.dataCache[slot]?) :
    slot = items.length % (c.cacheSize + 1) ∧ items.length < low + c.cacheSize := by
  obtain ⟨ring, readers, -⟩ := inv
  have room := ring.room
  have same : s'.dataCache = s.dataCache → False := fun same => changed (by rw [same])
  cases a with
  | cache =>
    rw [act, State.cache] at done
    split at done
    · split at done
      · cases done
        exact (same rfl).elim
      · rename_i more
        cases done
        rw [ring.full_iff readers.low_le] at more
        refine ⟨?_, by omega⟩
        by_contra other
        rw [← ring.end_] at other
        exact changed (List.getElem?_set_ne (Ne.symm other))
    · cases done
      exact (same rfl).elim
    · cases done
  | send t =>
    rw [act] at done
    split at done
    · cases done
    · cases done
      exact (same rfl).elim
  | start =>
    rw [act, State.start] at done
    split at done
    · cases done
      exact (same rfl).elim
    · cases done
      exact (same rfl).elim
    · cases done
      exact (same rfl).elim
    · split at done
      · cases done
        exact (same rfl).elim
      · cases done
  | read =>
    rw [act, State.read] at done
    split at done
    · cases done
      exact (same rfl).elim
    · split at done
      · cases done
        exact (same rfl).elim
      · cases done
    · cases done
  | replicate i =>
    rw [act, State.replicate] at done
    split at done
    · split at done
      · cases done
        exact (same rfl).elim
      · obtain ⟨t, -, rfl⟩ := Option.map_eq_some_iff.mp done
        refine (same ?_).elim
        simp only [State.copied, State.setReplicating, State.moveBegin]
        split <;> rfl
    · cases done
  | write i =>
    rw [act, State.write] at done
    split at done
    · cases done
      exact (same rfl).elim
    · cases done
  | close | wakeCaching | wakeReplicating i =>
    cases done
    exact (same rfl).elim

end

end Prpc.ChannelReplicator
