import Prpc.Rpc.Framing.Robust

namespace Prpc.Framing
open Lib Prpc.Archive Message Tcp

section
variable {mem : Mem} {a b n m : Nat} {bytes : List Byte}

@[simp] theorem length_window (mem : Mem) (a n : Nat) : (window mem a n).length = n := by simp [window]

theorem window_add (mem : Mem) (a n m : Nat) :
    window mem a (n + m) = window mem a n ++ window mem (address a n) m := by
  simp [window, List.range_add, address_address, Function.comp_def]

theorem window_congr {mem' : Mem} (fits : a + n ≤ wordSpace) (same : ∀ i < n, mem' (a + i) = mem (a + i)) :
    window mem' a n = window mem a n := by
  refine List.map_congr_left fun i mem_ => ?_
  have lt := List.mem_range.1 mem_
  rw [address_of_lt (by omega), same i lt]

theorem window_overwrite (fits : a + bytes.length ≤ wordSpace) :
    window (overwrite mem a bytes) a bytes.length = bytes := by
  refine List.ext_getElem (by simp) fun i lt lt' => ?_
  simp only [window, List.getElem_map, List.getElem_range]
  rw [address_of_lt (by omega), overwrite, if_pos (Nat.le_add_right a i), Nat.add_sub_cancel_left,
    List.getElem?_eq_getElem lt', Option.getD_some]

theorem window_overwrite_after (fits : a + n ≤ wordSpace) (before : a + n ≤ b) :
    window (overwrite mem b bytes) a n = window mem a n :=
  window_congr fits fun i lt => if_neg (by omega)

theorem window_put (fits : a + n + bytes.length ≤ wordSpace) :
    window (overwrite mem (a + n) bytes) a (n + bytes.length) = window mem a n ++ bytes := by
  rcases Nat.eq_zero_or_pos bytes.length with none_ | some_
  · have nil := List.eq_nil_of_length_eq_zero none_
    rw [nil, List.append_nil]
    exact window_congr (by simpa [nil] using fits) fun i _ => by simp [overwrite]
  · rw [window_add, address_of_lt (by omega), window_overwrite fits, window_overwrite_after (by omega) (by omega)]

end

/-- The head of a frame tells its size, which is such that no address behind the frame wraps around. -/
structure WellFormed (frame : List Byte) : Prop where
  head : headSize ≤ frame.length
  size : headSize + (readHead frame).extraBlockLength.toNat + (readHead frame).bodySize.toNat = frame.length
  fits : frame.length ≤ wordSpace - State.limit

/-- The state, and how much of the stream has been received. -/
structure Run where
  state : State
  received : Nat

inductive FrameStep (frames : List (List Byte)) : Run → Run → Prop
  | recv {r : Run} {s' : State} {bytes : List Byte} {fresh : Nat}
      (next : bytes <+: frames.flatten.drop r.received) (done : r.state.recv bytes fresh = some s') :
      FrameStep frames r ⟨s', r.received + bytes.length⟩
  | pass {r : Run} {s' : State} {fresh : Nat} (done : r.state.pass fresh = some s') :
      FrameStep frames r ⟨s', r.received⟩

abbrev FramesReachable (frames : List (List Byte)) : Run → Prop :=
  Reachable (fun r => ∃ mem, r = ⟨initial mem, 0⟩) (FrameStep frames)

theorem minus_of_le {a b : Nat} (le : b ≤ a) (lt : a < wordSpace) : RecvBuffer.minus a b = a - b := by
  rw [RecvBuffer.minus, show a + wordSpace - b = a - b + wordSpace by omega, Nat.add_mod_right,
    Nat.mod_eq_of_lt (by omega)]

structure RecvBuffer.Ordered (b : RecvBuffer) : Prop where
  limit : b.ptr + b.size ≤ State.limit
  start : b.ptr ≤ b.msgCursor
  cursor : b.msgCursor ≤ b.cursor
  stop : b.cursor ≤ b.ptr + b.size

namespace RecvBuffer.Ordered
variable {b : RecvBuffer}

section
variable (ordered : b.Ordered)
include ordered

theorem lt : b.ptr + b.size < wordSpace := Nat.lt_of_le_of_lt ordered.limit (by decide)

theorem end_eq : b.end_ = b.ptr + b.size := address_of_lt ordered.lt

theorem availableSize_eq : b.availableSize = b.ptr + b.size - b.cursor := by
  rw [RecvBuffer.availableSize, ordered.end_eq, minus_of_le ordered.stop ordered.lt]

theorem pending_eq : b.pending = b.cursor - b.msgCursor :=
  minus_of_le ordered.cursor (Nat.lt_of_le_of_lt ordered.stop ordered.lt)

end

end RecvBuffer.Ordered

/-- The buffer has what was received of the frames that were not yet delivered. -/
structure Buffered (frames : List (List Byte)) (s : State) (received : Nat) : Prop where
  ordered : s.buffer.Ordered
  bytes : window s.mem s.buffer.msgCursor s.buffer.pending <+: (frames.drop s.delivered.length).flatten
  received : received = (frames.take s.delivered.length).flatten.length + s.buffer.pending

/-- The frame is incomplete, and the rest of it, or of its head, fits in the buffer. -/
def Room (s : State) : Prop :=
  ¬s.HeadReceived ∧ s.buffer.msgCursor + headSize ≤ s.buffer.ptr + s.buffer.size ∨
    s.HeadReceived ∧ s.buffer.cursor < s.buffer.msgCursor + msgSize s.head ∧
      s.buffer.msgCursor + msgSize s.head ≤ s.buffer.ptr + s.buffer.size

variable {frames : List (List Byte)} {s s' : State} {received size fresh : Nat} {bytes : List Byte}

theorem headReceived_iff (ordered : s.buffer.Ordered) : s.HeadReceived ↔ headSize ≤ s.buffer.pending := by
  have limit := ordered.limit
  have stop := ordered.stop
  have cursor := ordered.cursor
  have below : State.limit + headSize < wordSpace := by decide
  rw [State.HeadReceived, ordered.pending_eq, address_of_lt (by omega)]
  omega

theorem msgSize_readHead {f : List Byte} (wellFormed : WellFormed f) : msgSize (readHead f) = f.length := by
  have fits := wellFormed.fits
  have below : wordSpace - State.limit < wordSpace := by decide
  rw [msgSize, wellFormed.size]
  exact Nat.mod_eq_of_lt (Nat.lt_of_le_of_lt fits below)

theorem Room.available (ordered : s.buffer.Ordered) (room : Room s) : 0 < s.buffer.availableSize := by
  rw [ordered.availableSize_eq]
  rcases room with ⟨early, fits⟩ | ⟨_, before, fits⟩
  · rw [headReceived_iff ordered, ordered.pending_eq] at early
    omega
  · omega

namespace Buffered

section
variable (buffered : Buffered frames s received)
include buffered

theorem head (wellFormed : ∀ f ∈ frames, WellFormed f)
    (complete : s.HeadReceived) : ∃ f rest, frames.drop s.delivered.length = f :: rest ∧
      msgSize s.head = f.length ∧ s.expectedMsgEnd = s.buffer.msgCursor + f.length := by
  have long := (headReceived_iff buffered.ordered).1 complete
  obtain ⟨k, whole⟩ := Nat.exists_eq_add_of_le long
  obtain ⟨unread, split⟩ := buffered.bytes
  rw [whole, window_add, List.append_assoc] at split
  cases left : frames.drop s.delivered.length with
  | nil =>
    rw [left] at split
    have none_ := congrArg List.length split
    rw [List.length_append, length_window] at none_
    exact absurd none_ (by simp [headSize])
  | cons f rest =>
    have good := wellFormed f (List.mem_of_mem_drop (left ▸ List.mem_cons_self))
    have same : s.head = readHead f := by
      rw [State.head, headAt, ← readHead_append (by rw [length_window]), split, left, List.flatten_cons,
        readHead_append good.head]
    have size : msgSize s.head = f.length := by rw [same, msgSize_readHead good]
    refine ⟨f, rest, rfl, size, ?_⟩
    have limit := buffered.ordered.limit
    have stop := buffered.ordered.stop
    have cursor := buffered.ordered.cursor
    have fits := good.fits
    have below : State.limit < wordSpace := by decide
    have positive : 0 < headSize := by decide
    rw [buffered.ordered.pending_eq] at long
    rw [State.expectedMsgEnd, size, address_of_lt (by omega)]

theorem move (done : s.move size fresh = some s') :
    Buffered frames s' received ∧ s'.buffer = ⟨fresh, size, fresh + s.buffer.pending, fresh⟩ ∧
      s'.buffer.pending = s.buffer.pending ∧
      window s'.mem fresh s.buffer.pending = window s.mem s.buffer.msgCursor s.buffer.pending := by
  rw [State.move, Option.ite_none_right_eq_some] at done
  obtain ⟨⟨limit, enough⟩, done⟩ := done
  cases done
  have below : State.limit < wordSpace := by decide
  have stop : address fresh s.buffer.pending = fresh + s.buffer.pending := address_of_lt (by omega)
  have ordered : RecvBuffer.Ordered ⟨fresh, size, fresh + s.buffer.pending, fresh⟩ :=
    ⟨limit, Nat.le_refl _, Nat.le_add_right .., by simpa using enough⟩
  have pending : RecvBuffer.pending ⟨fresh, size, fresh + s.buffer.pending, fresh⟩ = s.buffer.pending := by
    rw [ordered.pending_eq, Nat.add_sub_cancel_left]
  have copied : window (overwrite s.mem fresh (window s.mem s.buffer.msgCursor s.buffer.pending)) fresh
      (window s.mem s.buffer.msgCursor s.buffer.pending).length = _ :=
    window_overwrite (by rw [length_window]; omega)
  rw [length_window] at copied
  simp only [stop]
  refine ⟨⟨ordered, ?_, ?_⟩, trivial, pending, copied⟩
  · simp only [pending, copied]
    exact buffered.bytes
  · simp only [pending]
    exact buffered.received

theorem head_move (done : s.move size fresh = some s') :
    (s'.HeadReceived ↔ s.HeadReceived) ∧ (s.HeadReceived → s'.head = s.head) := by
  obtain ⟨after, buffer, pending, copied⟩ := buffered.move done
  have iff : s'.HeadReceived ↔ s.HeadReceived := by
    rw [headReceived_iff after.ordered, headReceived_iff buffered.ordered, pending]
  refine ⟨iff, fun complete => ?_⟩
  obtain ⟨k, whole⟩ := Nat.exists_eq_add_of_le ((headReceived_iff buffered.ordered).1 complete)
  rw [whole, window_add, window_add] at copied
  rw [State.head, State.head, headAt, headAt, buffer]
  exact congrArg readHead (List.append_inj_left copied (by simp))

theorem moveIf {full : Prop} [Decidable full]
    (done : s.moveIf full size fresh = some s') : Buffered frames s' received := by
  rw [State.moveIf] at done
  split at done
  · exact (buffered.move done).1
  · cases done
    exact buffered

theorem room_move (early : ¬s.HeadReceived)
    (done : s.move recvSize fresh = some s') : Room s' := by
  obtain ⟨-, buffer, -⟩ := buffered.move done
  have enough : headSize ≤ recvSize := by decide
  refine .inl ⟨(buffered.head_move done).1.not.2 early, ?_⟩
  rw [buffer]
  exact Nat.add_le_add_left enough fresh

theorem room_head (early : ¬s.HeadReceived)
    (done : s.moveIf (address s.buffer.msgCursor headSize > s.buffer.end_) recvSize fresh = some s') :
    Room s' := by
  have limit := buffered.ordered.limit
  have stop := buffered.ordered.stop
  have cursor := buffered.ordered.cursor
  have below : State.limit + headSize < wordSpace := by decide
  rw [State.moveIf] at done
  split at done
  · exact buffered.room_move early done
  · rename_i inside
    cases done
    rw [buffered.ordered.end_eq, address_of_lt (by omega)] at inside
    exact .inl ⟨early, by omega⟩

/-- A new buffer has room for the frame whose head it has got. -/
theorem room_frame (wellFormed : ∀ f ∈ frames, WellFormed f)
    (complete : s.HeadReceived) (waits : s.buffer.cursor < s.expectedMsgEnd)
    (done : s.moveIf (s.expectedMsgEnd > s.buffer.end_) (max (msgSize s.head) recvSize) fresh = some s') :
    Room s' := by
  obtain ⟨f, rest, -, size, stop⟩ := buffered.head wellFormed complete
  rw [stop] at waits done
  rw [State.moveIf] at done
  split at done
  · obtain ⟨after, buffer, -⟩ := buffered.move done
    obtain ⟨iff, same⟩ := buffered.head_move done
    refine .inr ⟨iff.2 complete, ?_, ?_⟩
    · rw [same complete, buffer, buffered.ordered.pending_eq, size]
      have cursor := buffered.ordered.cursor
      simp only
      omega
    · rw [same complete, buffer]
      exact Nat.add_le_add_left (Nat.le_max_left ..) _
  · rename_i inside
    cases done
    rw [buffered.ordered.end_eq] at inside
    exact .inr ⟨complete, by omega, by omega⟩

theorem put (next : bytes <+: frames.flatten.drop received)
    (fits : bytes.length ≤ s.buffer.availableSize) : Buffered frames (s.put bytes) (received + bytes.length) := by
  have ordered := buffered.ordered
  have limit := ordered.limit
  have start := ordered.start
  have cursor := ordered.cursor
  have stop := ordered.stop
  have below : State.limit < wordSpace := by decide
  rw [ordered.availableSize_eq] at fits
  have moved : address s.buffer.cursor bytes.length = s.buffer.cursor + bytes.length := address_of_lt (by omega)
  have ordered' : RecvBuffer.Ordered { s.buffer with cursor := s.buffer.cursor + bytes.length } :=
    ⟨limit, start, by simp only; omega, by simp only; omega⟩
  have pending : RecvBuffer.pending { s.buffer with cursor := s.buffer.cursor + bytes.length } =
      s.buffer.pending + bytes.length := by
    rw [ordered'.pending_eq, ordered.pending_eq]
    simp only
    omega
  have here : s.buffer.cursor = s.buffer.msgCursor + s.buffer.pending := by
    rw [ordered.pending_eq]
    omega
  simp only [State.put, moved]
  refine ⟨ordered', ?_, ?_⟩
  · simp only [pending]
    rw [here, window_put (by omega)]
    have split := List.flatten_append ▸ congrArg List.flatten (List.take_append_drop s.delivered.length frames)
    rw [← split, buffered.received, List.drop_length_add_append] at next
    obtain ⟨unread, whole⟩ := buffered.bytes
    rw [← whole] at next ⊢
    rw [List.drop_append_of_le_length (by simp), List.drop_of_length_le (by simp), List.nil_append] at next
    exact (List.prefix_append_right_inj _).2 next
  · simp only [pending]
    rw [buffered.received, Nat.add_assoc]

/-- The whole message that a pass delivers is the next frame. -/
theorem delivers (wellFormed : ∀ f ∈ frames, WellFormed f)
    (whole : s.Delivers) : ∃ f rest, frames.drop s.delivered.length = f :: rest ∧ msgSize s.head = f.length ∧
      s.expectedMsgEnd = s.buffer.msgCursor + f.length ∧ s.buffer.msgCursor + f.length ≤ s.buffer.cursor ∧
      window s.mem s.buffer.msgCursor f.length = f := by
  obtain ⟨complete, arrived⟩ := whole
  obtain ⟨f, rest, left, size, stop⟩ := buffered.head wellFormed complete
  rw [stop] at arrived
  have bytes := buffered.bytes
  have pending : s.buffer.pending = f.length + (s.buffer.cursor - (s.buffer.msgCursor + f.length)) := by
    rw [buffered.ordered.pending_eq]
    omega
  rw [pending, window_add, left, List.flatten_cons] at bytes
  obtain ⟨unread, bytes⟩ := bytes
  rw [List.append_assoc] at bytes
  exact ⟨f, rest, left, size, stop, arrived, List.append_inj_left bytes (length_window ..)⟩

theorem deliver (wellFormed : ∀ f ∈ frames, WellFormed f)
    (whole : s.Delivers) : Buffered frames s.deliver received := by
  obtain ⟨f, rest, left, -, stop, arrived, first⟩ := buffered.delivers wellFormed whole
  have ordered := buffered.ordered
  have limit := ordered.limit
  have start := ordered.start
  have cursor := ordered.stop
  have below : State.limit < wordSpace := by decide
  have ordered' : RecvBuffer.Ordered { s.buffer with msgCursor := s.buffer.msgCursor + f.length } :=
    ⟨limit, by simp only; omega, arrived, cursor⟩
  have pending : s.buffer.pending =
      f.length + RecvBuffer.pending { s.buffer with msgCursor := s.buffer.msgCursor + f.length } := by
    rw [ordered'.pending_eq, ordered.pending_eq]
    simp only
    omega
  have bytes := buffered.bytes
  have total := buffered.received
  rw [pending, window_add, first, left, List.flatten_cons, List.prefix_append_right_inj,
    address_of_lt (by omega)] at bytes
  have next : frames[s.delivered.length]? = some f := by
    rw [← Nat.add_zero s.delivered.length, ← List.getElem?_drop, left, List.getElem?_cons_zero]
  simp only [State.deliver, stop]
  refine ⟨ordered', ?_, ?_⟩
  · rw [List.length_append, List.length_singleton, ← List.tail_drop, left]
    exact bytes
  · rw [List.length_append, List.length_singleton, List.take_add_one, next, List.flatten_append,
      List.length_append, total, pending]
    simp [Nat.add_assoc]

end

end Buffered

/-- Between two calls of `recv_nonblock` the buffer has room, except for the null buffer of the beginning. -/
structure Inv (frames : List (List Byte)) (r : Run) : Prop where
  buffered : Buffered frames r.state r.received
  room : r.state.parsing = false → r.state.buffer.size = 0 ∨ Room r.state

namespace Inv
variable {r : Run}

section
variable (inv : Inv frames r)
include inv

theorem pending_of_full (idle : r.state.parsing = false)
    (full : r.state.buffer.availableSize = 0) : r.state.buffer.pending = 0 := by
  have ordered := inv.buffered.ordered
  rcases inv.room idle with null | room
  · have start := ordered.start
    have cursor := ordered.cursor
    have stop := ordered.stop
    rw [ordered.pending_eq]
    omega
  · exact absurd full (Nat.ne_of_gt (room.available ordered))

theorem before_recv (idle : r.state.parsing = false)
    (done : r.state.moveIf (r.state.buffer.availableSize = 0) recvSize fresh = some s) :
    Buffered frames s r.received ∧ Room s := by
  refine ⟨inv.buffered.moveIf done, ?_⟩
  rw [State.moveIf] at done
  split at done
  · rename_i full
    refine inv.buffered.room_move ?_ done
    rw [headReceived_iff inv.buffered.ordered, inv.pending_of_full idle full]
    decide
  · rename_i some_
    cases done
    refine (inv.room idle).resolve_left fun null => some_ ?_
    rw [inv.buffered.ordered.availableSize_eq, null]
    have start := inv.buffered.ordered.start
    have cursor := inv.buffered.ordered.cursor
    omega

theorem recv (next : bytes <+: frames.flatten.drop r.received)
    (done : r.state.recv bytes fresh = some s') : Inv frames ⟨s', r.received + bytes.length⟩ := by
  rw [State.recv, Option.ite_none_left_eq_some] at done
  obtain ⟨idle, done⟩ := done
  obtain ⟨s₁, moved, done⟩ := Option.bind_eq_some_iff.1 done
  rw [Option.ite_none_right_eq_some] at done
  obtain ⟨⟨-, fits⟩, done⟩ := done
  cases done
  obtain ⟨buffered, -⟩ := inv.before_recv (Bool.eq_false_iff.2 idle) moved
  exact ⟨buffered.put next fits, by simp [State.put]⟩

theorem pass (wellFormed : ∀ f ∈ frames, WellFormed f)
    (done : r.state.pass fresh = some s') : Inv frames ⟨s', r.received⟩ := by
  rw [State.pass, Option.ite_none_right_eq_some] at done
  obtain ⟨parsing, done⟩ := done
  split at done
  · rename_i whole
    cases done
    refine ⟨inv.buffered.deliver wellFormed whole, fun idle => ?_⟩
    rw [parsing_deliver, parsing] at idle
    cases idle
  · rename_i part
    split at done
    · rename_i complete
      obtain ⟨s₁, moved, rfl⟩ := Option.map_eq_some_iff.1 done
      have waits : r.state.buffer.cursor < r.state.expectedMsgEnd := Nat.lt_of_not_le fun le => part ⟨complete, le⟩
      have after := inv.buffered.moveIf moved
      have room := inv.buffered.room_frame wellFormed complete waits moved
      exact ⟨⟨after.ordered, after.bytes, after.received⟩, fun _ => .inr room⟩
    · rename_i early
      obtain ⟨s₁, moved, rfl⟩ := Option.map_eq_some_iff.1 done
      have after := inv.buffered.moveIf moved
      have room := inv.buffered.room_head early moved
      exact ⟨⟨after.ordered, after.bytes, after.received⟩, fun _ => .inr room⟩

end

theorem of_reachable (wellFormed : ∀ f ∈ frames, WellFormed f) (reachable : FramesReachable frames r) :
    Inv frames r := by
  refine Reachable.invariant (Inv frames) ?_ ?_ reachable
  · rintro r ⟨mem, rfl⟩
    have ordered : RecvBuffer.Ordered ⟨0, 0, 0, 0⟩ := ⟨by decide, by decide, by decide, by decide⟩
    have none_ : RecvBuffer.pending ⟨0, 0, 0, 0⟩ = 0 := by decide
    refine ⟨⟨ordered, ?_, ?_⟩, fun _ => .inl rfl⟩
    · rw [initial, none_]
      exact List.nil_prefix
    · simp [initial, none_]
  · rintro r r' inv (⟨next, done⟩ | ⟨done⟩)
    · exact inv.recv next done
    · exact inv.pass wellFormed done

theorem pending_lt (inv : Inv frames r) (wellFormed : ∀ f ∈ frames, WellFormed f)
    (idle : r.state.parsing = false) {f : List Byte} (next : frames[r.state.delivered.length]? = some f) :
    r.state.buffer.pending < f.length := by
  have ordered := inv.buffered.ordered
  have long := (wellFormed f (List.mem_of_getElem? next)).head
  by_cases complete : r.state.HeadReceived
  · obtain ⟨f', rest, left, size, -⟩ := inv.buffered.head wellFormed complete
    rw [← Nat.add_zero r.state.delivered.length, ← List.getElem?_drop, left, List.getElem?_cons_zero] at next
    cases next
    rcases inv.room idle with null | ⟨early, -⟩ | ⟨-, before, -⟩
    · have start := ordered.start
      have stop := ordered.stop
      have positive : 0 < headSize := by decide
      rw [ordered.pending_eq]
      omega
    · exact absurd complete early
    · have cursor := ordered.cursor
      rw [size] at before
      rw [ordered.pending_eq]
      omega
  · rw [headReceived_iff ordered] at complete
    omega

theorem delivered_of_received (inv : Inv frames r) (wellFormed : ∀ f ∈ frames, WellFormed f)
    (idle : r.state.parsing = false) {k : Nat} (le : k ≤ frames.length)
    (arrived : (frames.take k).flatten.length ≤ r.received) : k ≤ r.state.delivered.length := by
  by_contra more
  have lt : r.state.delivered.length < frames.length := by omega
  have next := List.getElem?_eq_getElem lt
  have less := inv.pending_lt wellFormed idle next
  have upto : (frames.take (r.state.delivered.length + 1)).flatten.length ≤ (frames.take k).flatten.length :=
    (List.IsPrefix.flatten (List.take_prefix_take_left (by omega))).length_le
  rw [List.take_add_one, next, List.flatten_append, List.length_append] at upto
  rw [inv.buffered.received] at arrived
  simp only [Option.toList_some, List.flatten_singleton] at upto
  omega

end Inv

/-- At every call of `recv_nonblock` there is room for the rest of the frame or of its head, and all frames
that have arrived are delivered. What is copied into a new buffer fits in it. A frame is delivered out of one
buffer. -/
theorem frames_have_room (wellFormed : ∀ f ∈ frames, WellFormed f) {r : Run} (reachable : FramesReachable frames r) :
    (r.state.parsing = false → (r.state.buffer.availableSize = 0 → r.state.buffer.pending ≤ recvSize) ∧
      (∀ fresh s, r.state.moveIf (r.state.buffer.availableSize = 0) recvSize fresh = some s →
        0 < s.buffer.availableSize ∧ Room s) ∧
      ∀ k ≤ frames.length, (frames.take k).flatten.length ≤ r.received → k ≤ r.state.delivered.length) ∧
    (r.state.parsing = true → (¬r.state.HeadReceived → r.state.buffer.pending ≤ recvSize) ∧
      (r.state.HeadReceived → ¬r.state.Delivers →
        r.state.buffer.pending ≤ max (msgSize r.state.head) recvSize) ∧
      (r.state.Delivers → frames[r.state.delivered.length]? =
          some (window r.state.mem r.state.buffer.msgCursor (msgSize r.state.head)) ∧
        r.state.buffer.ptr ≤ r.state.buffer.msgCursor ∧
        r.state.buffer.msgCursor + msgSize r.state.head ≤ r.state.buffer.ptr + r.state.buffer.size)) := by
  have inv := Inv.of_reachable wellFormed reachable
  have ordered := inv.buffered.ordered
  refine ⟨fun idle => ⟨fun full => ?_, fun fresh s moved => ?_, fun k le arrived => ?_⟩,
    fun parsing => ⟨fun early => ?_, fun complete part => ?_, fun whole => ?_⟩⟩
  · rw [inv.pending_of_full idle full]
    exact Nat.zero_le _
  · obtain ⟨buffered, room⟩ := inv.before_recv idle moved
    exact ⟨room.available buffered.ordered, room⟩
  · exact inv.delivered_of_received wellFormed idle le arrived
  · rw [headReceived_iff ordered] at early
    have enough : headSize ≤ recvSize := by decide
    omega
  · obtain ⟨f, rest, -, size, stop⟩ := inv.buffered.head wellFormed complete
    have waits : r.state.buffer.cursor < r.state.expectedMsgEnd := Nat.lt_of_not_le fun le => part ⟨complete, le⟩
    refine Nat.le_trans ?_ (Nat.le_max_left ..)
    rw [ordered.pending_eq, size]
    omega
  · obtain ⟨f, rest, left, size, -, arrived, first⟩ := inv.buffered.delivers wellFormed whole
    rw [size, first, ← Nat.add_zero r.state.delivered.length, ← List.getElem?_drop, left]
    exact ⟨rfl, ordered.start, Nat.le_trans arrived ordered.stop⟩

theorem oneHead_frames {h : RpcHead} {tail : List Byte} (came : oneHead h = some s) :
    FramesReachable [headBytes h 0 ++ tail] ⟨s, headSize⟩ := by
  rw [oneHead, act] at came
  have next : headBytes h 0 <+: [headBytes h 0 ++ tail].flatten.drop 0 := by simp
  have step : FrameStep [headBytes h 0 ++ tail] ⟨initial fun _ => 0, 0⟩ ⟨s, 0 + (headBytes h 0).length⟩ :=
    .recv next came
  rw [Nat.zero_add, headBytes_length] at step
  exact .next (.initial ⟨_, rfl⟩) step

theorem frames_have_room_empty : ∃ r, FramesReachable [headBytes {} 0] r ∧ r.state.Delivers ∧
    [headBytes {} 0][r.state.delivered.length]? =
      some (window r.state.mem r.state.buffer.msgCursor (msgSize r.state.head)) := by
  have run : (oneHead {}).any (fun s => s.parsing && s.Delivers) = true := by decide +kernel
  obtain ⟨s, came, holds⟩ := (Option.any_eq_true ..).1 run
  rw [Bool.and_eq_true, decide_eq_true_iff] at holds
  have reachable : FramesReachable [headBytes {} 0 ++ []] ⟨s, headSize⟩ := oneHead_frames came
  rw [List.append_nil] at reachable
  have wellFormed : ∀ f ∈ [headBytes {} 0], WellFormed f :=
    List.forall_mem_singleton.2 ⟨by decide, by decide +kernel, by decide⟩
  exact ⟨_, reachable, holds.2, (((frames_have_room wellFormed reachable).2 holds.1).2.2 holds.2).1⟩

/-- The size of the message is less than `2 ^ 64`, the address behind it is not: the frame is delivered
when its head has arrived. -/
theorem frame_delivered_early : ∃ frame, headSize ≤ frame.length ∧ frame.length < wordSpace ∧
    headSize + (readHead frame).extraBlockLength.toNat + (readHead frame).bodySize.toNat = frame.length ∧
    ∃ r, FramesReachable [frame] r ∧ r.received < frame.length ∧ r.state.pass 0 = some r.state.deliver ∧
      r.state.buffer.ptr + r.state.buffer.size < r.state.buffer.msgCursor + msgSize r.state.head := by
  let h : RpcHead := { bodySize := 2 ^ 64 - 140 }
  have run : (oneHead h).any (fun s => s.parsing && s.Delivers &&
      (s.buffer.ptr + s.buffer.size < s.buffer.msgCursor + msgSize s.head : Bool)) = true := by decide +kernel
  obtain ⟨s, came, holds⟩ := (Option.any_eq_true ..).1 run
  rw [Bool.and_eq_true, Bool.and_eq_true, decide_eq_true_iff, decide_eq_true_iff] at holds
  obtain ⟨⟨parsing, delivers⟩, behind⟩ := holds
  have length : (headBytes h 0 ++ List.replicate (2 ^ 64 - 140) 0).length = 2 ^ 64 - 100 := by
    rw [List.length_append, headBytes_length, List.length_replicate]
    rfl
  have size : headSize + h.extraBlockLength.toNat + h.bodySize.toNat = 2 ^ 64 - 100 := by decide +kernel
  have early : headSize < 2 ^ 64 - 100 := by decide
  have passed : s.pass 0 = some s.deliver := by rw [State.pass, if_pos parsing, if_pos delivers]
  refine ⟨headBytes h 0 ++ List.replicate (2 ^ 64 - 140) 0, ?_, ?_, ?_, _, oneHead_frames came, ?_, passed, behind⟩
  · rw [length]
    decide
  · rw [length]
    decide
  · rw [length, readHead_headBytes, size]
  · rw [length]
    exact early

end Prpc.Framing
