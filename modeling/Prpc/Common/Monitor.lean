import Mathlib.Data.Finmap
import Mathlib.Data.List.Sort
import Prpc.Lib.Transition

/-!
`Monitor` runs handlers at set times in one worker thread. The active events are in a map, and those that
wait for their time also in a multiset of references, ordered by time. What is done under the mutex is one
step; the worker leaves it while a handler runs. Times are in nanoseconds, and the clock may read anything.
-/

namespace Prpc.Monitor
open Lib

structure Event where
  next : Int
  period : Int
  running : Bool
  canceled : Bool

structure State where
  nextId : UInt64
  activeEvents : Finmap (fun _ : UInt64 => Event)
  /-- references, by the id under which the map has the event -/
  eventQueue : List UInt64
  /-- the event whose handler the worker is in -/
  worker : Option UInt64

def initial : State := ⟨1, ∅, [], none⟩

def duration (ms : UInt64) : Int := (ms.toNat : Int).bmod (2 ^ 64)

def later (time : Int) (milliseconds : Int) : Int := time + 1000000 * milliseconds

namespace State

def next (s : State) (id : UInt64) : Int := ((s.activeEvents.lookup id).map (·.next)).getD 0

/-- No reference in the queue dangles: without this every operation on the queue is undefined. -/
def Valid (s : State) : Prop := ∀ id ∈ s.eventQueue, id ∈ s.activeEvents

instance (s : State) : Decidable s.Valid := List.decidableBAll (· ∈ s.activeEvents) s.eventQueue

def enqueue (s : State) (id : UInt64) : State :=
  { s with eventQueue := s.eventQueue.orderedInsert (fun i j => s.next i < s.next j) id }

/-- `_event_queue.erase` by key, which is the time. -/
def dequeue (s : State) (id : UInt64) : State :=
  { s with eventQueue := s.eventQueue.filter (fun i => s.next i ≠ s.next id) }

def setEvent (s : State) (id : UInt64) (e : Event) : State :=
  { s with activeEvents := s.activeEvents.insert id e }

def eraseEvent (s : State) (id : UInt64) : State := { s with activeEvents := s.activeEvents.erase id }

/-- `emplace` keeps an event that has the id already, and it is this one that is queued then. -/
def submitImpl (s : State) (item : Event) : UInt64 × State :=
  let active := if s.nextId ∈ s.activeEvents then s.activeEvents else s.activeEvents.insert s.nextId item
  (s.nextId, { s with nextId := s.nextId + 1, activeEvents := active }.enqueue s.nextId)

def submit (s : State) (now : Int) (msFromNow msPeriod : UInt64) : UInt64 × State :=
  s.submitImpl ⟨later now (duration msFromNow), duration msPeriod, false, false⟩

/-- The event that the result waits for, or `none` where its `wait` returns false. -/
def destroy (s : State) (id : UInt64) : Option UInt64 × State :=
  match s.activeEvents.lookup id with
  | none => (none, s)
  | some e =>
    (some id, if e.running then s.setEvent id { e with canceled := true } else (s.dequeue id).eraseEvent id)

def runFirst (s : State) (now : Int) : State :=
  match s.eventQueue with
  | [] => s
  | id :: rest =>
    match s.activeEvents.lookup id with
    | none => s
    | some e =>
      if now ≥ e.next then
        { s with eventQueue := rest, worker := some id }.setEvent id { e with running := true }
      else s

def ran (s : State) (id : UInt64) (e : Event) : State :=
  let s := { s with worker := none }
  if e.canceled then s.eraseEvent id
  else if e.period > 0 then
    (s.setEvent id { e with running := false, next := later e.next e.period }).enqueue id
  else s.eraseEvent id

end State

inductive Action
  | submit (now : Int) (msFromNow msPeriod : UInt64)
  | destroy (id : UInt64)
  | runFirst (now : Int)
  | ran

def act (s : State) : Action → Option State
  | .submit now msFromNow msPeriod => if s.Valid then some (s.submit now msFromNow msPeriod).2 else none
  | .destroy id => if s.Valid then some (s.destroy id).2 else none
  | .runFirst now => if s.Valid ∧ s.worker = none then some (s.runFirst now) else none
  | .ran => if s.Valid then s.worker.bind fun id => (s.activeEvents.lookup id).map (s.ran id) else none

inductive Status
  | notFound
  | running
  | pending
  | done
  deriving DecidableEq

def State.query (s : State) (id : UInt64) : Status :=
  match s.activeEvents.lookup id with
  | none => if id < s.nextId then .done else .notFound
  | some e => if e.running then .running else .pending

/-- No active event has the id that is given out next, and no other event that waits has the time of the
one that is destroyed. -/
def Careful (s : State) : Action → Prop
  | .submit .. => s.nextId ∉ s.activeEvents
  | .destroy id => s.query id = .pending → ∀ other ∈ s.eventQueue, s.next other = s.next id → other = id
  | _ => True

inductive Step (allowed : State → Action → Prop) : State → State → Prop
  | act {s s' : State} (a : Action) (allows : allowed s a) (done : act s a = some s') : Step allowed s s'

abbrev MonitorReachable (allowed : State → Action → Prop) : State → Prop :=
  Reachable (fun s => s = initial) (Step allowed)

variable {s s' : State} {id : UInt64} {e : Event}

def State.Waiting (s : State) (id : UInt64) : Prop :=
  ∃ e, s.activeEvents.lookup id = some e ∧ e.running = false

def State.Running (s : State) (id : UInt64) : Prop :=
  ∃ e, s.activeEvents.lookup id = some e ∧ e.running = true

def Scheduled (s : State) : Prop := s.eventQueue.Nodup ∧ ∀ id, id ∈ s.eventQueue ↔ s.Waiting id

def Spares (id : UInt64) (s s' : State) : Prop :=
  ∀ other, other ≠ id → s'.activeEvents.lookup other = s.activeEvents.lookup other ∧
    (other ∈ s'.eventQueue ↔ other ∈ s.eventQueue)

structure Inv (s : State) : Prop where
  scheduled : Scheduled s
  worker : ∀ id, s.worker = some id ↔ s.Running id

theorem Inv.valid (inv : Inv s) : s.Valid := by
  intro id queued
  obtain ⟨e, found, -⟩ := (inv.scheduled.2 id).1 queued
  exact Finmap.mem_iff.2 ⟨e, found⟩

theorem Inv.change (inv : Inv s) (spares : Spares id s s') (nodup : s'.eventQueue.Nodup)
    (queued : id ∈ s'.eventQueue ↔ s'.Waiting id)
    (worker : ∀ other, s'.worker = some other ↔ if other = id then s'.Running id else s.worker = some other) :
    Inv s' := by
  refine ⟨⟨nodup, fun other => ?_⟩, fun other => ?_⟩
  · rcases eq_or_ne other id with rfl | ne
    · exact queued
    · rw [(spares other ne).2, inv.scheduled.2 other, State.Waiting, State.Waiting, (spares other ne).1]
  · rw [worker other]
    split
    · rename_i same
      rw [same]
    · rename_i ne
      rw [inv.worker other, State.Running, State.Running, (spares other ne).1]

theorem mem_enqueue {other : UInt64} : other ∈ (s.enqueue id).eventQueue ↔ other = id ∨ other ∈ s.eventQueue :=
  List.mem_orderedInsert _

theorem nodup_enqueue : (s.enqueue id).eventQueue.Nodup ↔ id ∉ s.eventQueue ∧ s.eventQueue.Nodup := by
  rw [← List.nodup_cons]
  exact (List.perm_orderedInsert _ id s.eventQueue).nodup_iff

theorem Inv.not_queued (inv : Inv s) (absent : id ∉ s.activeEvents) : id ∉ s.eventQueue :=
  fun queued => absent (inv.valid id queued)

theorem Inv.not_in_worker (inv : Inv s) (idle : ¬ s.Running id) : s.worker ≠ some id :=
  fun working => idle ((inv.worker id).1 working)

theorem not_running_of_waiting (waiting : s.Waiting id) : ¬ s.Running id := by
  rintro ⟨e', found', running⟩
  obtain ⟨e, found, notRunning⟩ := waiting
  rw [found] at found'
  cases found'
  rw [notRunning] at running
  cases running

theorem not_running_of_absent (absent : s.activeEvents.lookup id = none) : ¬ s.Running id := by
  rintro ⟨e, found, -⟩
  rw [absent] at found
  cases found

theorem not_waiting_of_absent (absent : s.activeEvents.lookup id = none) : ¬ s.Waiting id := by
  rintro ⟨e, found, -⟩
  rw [absent] at found
  cases found

theorem Inv.queue (inv : Inv s) (id : UInt64) (spares : Spares id s s') (nodup : s'.eventQueue.Nodup) (mem : id ∈ s'.eventQueue)
    (waiting : s'.Waiting id) (worker : ∀ other, s'.worker = some other ↔ other ≠ id ∧ s.worker = some other) :
    Inv s' := by
  refine inv.change spares nodup (iff_of_true mem waiting) fun other => ?_
  rw [worker other]
  split
  · rename_i same
    exact iff_of_false (fun both => both.1 same) (not_running_of_waiting waiting)
  · rename_i ne
    exact and_iff_right ne

theorem Inv.erase (inv : Inv s) (id : UInt64) (spares : Spares id s s') (nodup : s'.eventQueue.Nodup) (gone : id ∉ s'.eventQueue)
    (absent : s'.activeEvents.lookup id = none)
    (worker : ∀ other, s'.worker = some other ↔ other ≠ id ∧ s.worker = some other) : Inv s' := by
  refine inv.change spares nodup (iff_of_false gone (not_waiting_of_absent absent)) fun other => ?_
  rw [worker other]
  split
  · rename_i same
    exact iff_of_false (fun both => both.1 same) (not_running_of_absent absent)
  · rename_i ne
    exact and_iff_right ne

theorem Inv.run (inv : Inv s) (id : UInt64) (spares : Spares id s s') (nodup : s'.eventQueue.Nodup) (gone : id ∉ s'.eventQueue)
    (running : s'.Running id)
    (worker : ∀ other, s'.worker = some other ↔ other = id ∨ s.worker = some other) : Inv s' := by
  refine inv.change spares nodup (iff_of_false gone fun waiting => not_running_of_waiting waiting running)
    fun other => ?_
  rw [worker other]
  split
  · rename_i same
    exact iff_of_true (.inl same) running
  · rename_i ne
    exact or_iff_right ne

theorem Inv.submit (inv : Inv s) (fresh : s.nextId ∉ s.activeEvents) (now : Int) (msFromNow msPeriod : UInt64) :
    Inv (s.submit now msFromNow msPeriod).2 := by
  have idle : ¬ s.Running s.nextId := not_running_of_absent (Finmap.lookup_eq_none.2 fresh)
  rw [State.submit, State.submitImpl, if_neg fresh]
  refine inv.queue s.nextId (fun other ne => ⟨?_, ?_⟩) ?_ ?_ ⟨_, Finmap.lookup_insert _, rfl⟩ fun other => ?_
  · exact Finmap.lookup_insert_of_ne _ ne
  · exact mem_enqueue.trans (or_iff_right ne)
  · exact nodup_enqueue.2 ⟨inv.not_queued fresh, inv.scheduled.1⟩
  · exact mem_enqueue.2 (.inl rfl)
  · show s.worker = some other ↔ _
    refine (and_iff_right_of_imp fun working same => ?_).symm
    exact inv.not_in_worker idle (same ▸ working)

theorem query_pending_iff : s.query id = .pending ↔ s.Waiting id := by
  rw [State.query, State.Waiting]
  cases found : s.activeEvents.lookup id with
  | none =>
    refine iff_of_false ?_ (by rintro ⟨e, ⟨⟩, -⟩)
    show (if id < s.nextId then Status.done else .notFound) ≠ .pending
    split <;> nofun
  | some e =>
    show (if e.running = true then Status.running else .pending) = .pending ↔ _
    cases running : e.running with
    | true => exact iff_of_false nofun (by rintro ⟨e', ⟨⟩, other⟩; rw [running] at other; cases other)
    | false => exact iff_of_true rfl ⟨e, rfl, running⟩

theorem destroy_running (found : s.activeEvents.lookup id = some e) (running : e.running = true) :
    (s.destroy id).2 = s.setEvent id { e with canceled := true } := by
  rw [State.destroy, found]
  exact if_pos running

theorem destroy_waiting (waiting : s.Waiting id) : (s.destroy id).2 = (s.dequeue id).eraseEvent id := by
  obtain ⟨e, found, notRunning⟩ := waiting
  rw [State.destroy, found]
  exact if_neg (Bool.eq_false_iff.1 notRunning)

theorem mem_dequeue {other : UInt64} :
    other ∈ (s.dequeue id).eventQueue ↔ other ∈ s.eventQueue ∧ s.next other ≠ s.next id := by
  rw [State.dequeue, List.mem_filter, decide_eq_true_eq]

theorem Inv.destroy (inv : Inv s) (careful : Careful s (.destroy id)) :
    Inv (s.destroy id).2 ∧ Spares id s (s.destroy id).2 := by
  cases found : s.activeEvents.lookup id with
  | none =>
    rw [State.destroy, found]
    exact ⟨inv, fun other ne => ⟨rfl, .rfl⟩⟩
  | some e =>
    cases running : e.running with
    | true =>
      rw [destroy_running found running]
      have spares : Spares id s (s.setEvent id { e with canceled := true }) :=
        fun other ne => ⟨Finmap.lookup_insert_of_ne _ ne, .rfl⟩
      have runs : s.Running id := ⟨e, found, running⟩
      have working := (inv.worker id).2 runs
      refine ⟨inv.run id spares inv.scheduled.1 ?_ ⟨_, Finmap.lookup_insert _, running⟩ fun other => ?_, spares⟩
      · exact fun queued => not_running_of_waiting ((inv.scheduled.2 id).1 queued) runs
      · exact (or_iff_right_of_imp fun same => same ▸ working).symm
    | false =>
      have waiting : s.Waiting id := ⟨e, found, running⟩
      rw [destroy_waiting waiting]
      have spares : Spares id s ((s.dequeue id).eraseEvent id) := by
        refine fun other ne => ⟨Finmap.lookup_erase_ne ne, mem_dequeue.trans ?_⟩
        refine and_iff_left_of_imp fun queued same => ne ?_
        exact careful (query_pending_iff.2 waiting) other queued same
      refine ⟨inv.erase id spares (inv.scheduled.1.filter _) ?_ (Finmap.lookup_erase _ _) fun other => ?_, spares⟩
      · exact fun queued => (mem_dequeue.1 queued).2 rfl
      · refine (and_iff_right_of_imp fun working same => ?_).symm
        exact inv.not_in_worker (not_running_of_waiting waiting) (same ▸ working)

theorem Inv.runFirst (inv : Inv s) (idle : s.worker = none) (now : Int) : Inv (s.runFirst now) := by
  rw [State.runFirst]
  split
  · exact inv
  · rename_i id rest queue
    split
    · exact inv
    · rename_i e found
      split
      · have nodup := inv.scheduled.1
        rw [queue, List.nodup_cons] at nodup
        refine inv.run id (fun other ne => ⟨Finmap.lookup_insert_of_ne _ ne, ?_⟩) nodup.2 nodup.1
          ⟨_, Finmap.lookup_insert _, rfl⟩ fun other => ?_
        · rw [queue, List.mem_cons]
          exact (or_iff_right ne).symm
        · show some id = some other ↔ _
          rw [idle, Option.some_inj]
          exact ⟨fun same => .inl same.symm, fun either => (either.resolve_right nofun).symm⟩
      · exact inv

theorem Inv.ran (inv : Inv s) (working : s.worker = some id) (e : Event) : Inv (s.ran id e) := by
  have gone : id ∉ s.eventQueue := fun queued =>
    not_running_of_waiting ((inv.scheduled.2 id).1 queued) ((inv.worker id).1 working)
  have worker (other : UInt64) : none = some other ↔ other ≠ id ∧ s.worker = some other := by
    refine iff_of_false nofun fun both => both.1 ?_
    rw [working] at both
    exact (Option.some.inj both.2).symm
  have erased : Inv ({ s with worker := none }.eraseEvent id) :=
    inv.erase id (fun other ne => ⟨Finmap.lookup_erase_ne ne, .rfl⟩) inv.scheduled.1 gone (Finmap.lookup_erase _ _) worker
  rw [State.ran]
  split
  · exact erased
  · split
    · refine inv.queue id (fun other ne => ⟨?_, ?_⟩) ?_ ?_ ⟨_, Finmap.lookup_insert _, rfl⟩ worker
      · exact Finmap.lookup_insert_of_ne _ ne
      · exact mem_enqueue.trans (or_iff_right ne)
      · exact nodup_enqueue.2 ⟨gone, inv.scheduled.1⟩
      · exact mem_enqueue.2 (.inl rfl)
    · exact erased

theorem Inv.act (inv : Inv s) {a : Action} (careful : Careful s a) (done : act s a = some s') : Inv s' := by
  cases a with
  | submit now msFromNow msPeriod =>
    rw [Monitor.act, Option.ite_none_right_eq_some] at done
    obtain ⟨-, ⟨⟩⟩ := done
    exact inv.submit careful now msFromNow msPeriod
  | destroy id =>
    rw [Monitor.act, Option.ite_none_right_eq_some] at done
    obtain ⟨-, ⟨⟩⟩ := done
    exact (inv.destroy careful).1
  | runFirst now =>
    rw [Monitor.act, Option.ite_none_right_eq_some] at done
    obtain ⟨⟨-, idle⟩, ⟨⟩⟩ := done
    exact inv.runFirst idle now
  | ran =>
    rw [Monitor.act, Option.ite_none_right_eq_some] at done
    obtain ⟨-, done⟩ := done
    obtain ⟨id, working, done⟩ := Option.bind_eq_some_iff.1 done
    obtain ⟨e, -, rfl⟩ := Option.map_eq_some_iff.1 done
    exact inv.ran working e

theorem inv_of_reachable (reachable : MonitorReachable Careful s) : Inv s := by
  refine Reachable.invariant Inv (fun s start => ?_) (fun s s' inv step => ?_) reachable
  · rw [start]
    refine ⟨⟨List.nodup_nil, fun id => iff_of_false nofun ?_⟩, fun id => iff_of_false nofun ?_⟩
    · exact not_waiting_of_absent (Finmap.lookup_empty id)
    · exact not_running_of_absent (Finmap.lookup_empty id)
  · obtain ⟨a, careful, done⟩ := step
    exact inv.act careful done

theorem Inv.submit_active (inv : Inv s) (active : s.nextId ∈ s.activeEvents) (now : Int)
    (msFromNow msPeriod : UInt64) : ¬ Scheduled (s.submit now msFromNow msPeriod).2 := by
  rintro ⟨nodup, queued⟩
  rw [State.submit, State.submitImpl, if_pos active] at nodup queued
  -- The event that has the id already would wait and not have been in the queue before.
  have fresh := (nodup_enqueue.1 nodup).1
  exact fresh ((inv.scheduled.2 s.nextId).2 ((queued s.nextId).1 (mem_enqueue.2 (.inl rfl))))

theorem Inv.destroy_other (inv : Inv s) (careless : ¬ Careful s (.destroy id)) :
    ¬ Scheduled (s.destroy id).2 := by
  obtain ⟨pending, other, queued, same, ne⟩ : s.query id = .pending ∧
      ∃ other ∈ s.eventQueue, s.next other = s.next id ∧ other ≠ id := by
    simpa only [Careful, Classical.not_imp, not_forall, exists_prop] using careless
  rintro ⟨-, scheduled⟩
  rw [destroy_waiting (query_pending_iff.1 pending)] at scheduled
  obtain ⟨e, found, notRunning⟩ := (inv.scheduled.2 other).1 queued
  have still : ((s.dequeue id).eraseEvent id).Waiting other :=
    ⟨e, (Finmap.lookup_erase_ne ne).trans found, notRunning⟩
  exact (mem_dequeue.1 ((scheduled other).2 still)).2 same

/-- In every run of careful steps the queue has every active event that is not running once, and nothing
else, and `destroy` leaves every other event where it is; and a step that is not careful breaks this. -/
theorem events_scheduled (s : State) (reachable : MonitorReachable Careful s) :
    Scheduled s ∧ (∀ id, s.Running id → id ∉ s.eventQueue) ∧
    (∀ id s', Careful s (.destroy id) → act s (.destroy id) = some s' → Spares id s s') ∧
    (∀ a, ¬ Careful s a → ∃ s', act s a = some s' ∧ ¬ Scheduled s') := by
  have inv := inv_of_reachable reachable
  refine ⟨inv.scheduled, fun id running queued => ?_, fun id s' careful done => ?_, fun a careless => ?_⟩
  · exact not_running_of_waiting ((inv.scheduled.2 id).1 queued) running
  · rw [act, Option.ite_none_right_eq_some] at done
    obtain ⟨-, ⟨⟩⟩ := done
    exact (inv.destroy careful).2
  · cases a with
    | submit now msFromNow msPeriod =>
      refine ⟨_, ?_, inv.submit_active (not_not.1 careless) now msFromNow msPeriod⟩
      rw [act, if_pos inv.valid]
    | destroy id =>
      refine ⟨_, ?_, inv.destroy_other careless⟩
      rw [act, if_pos inv.valid]
    | runFirst now => exact absurd trivial careless
    | ran => exact absurd trivial careless

instance (s : State) : (a : Action) → Decidable (Careful s a)
  | .submit .. => inferInstanceAs (Decidable (¬ _))
  | .destroy id =>
    letI := List.decidableBAll (fun other => s.next other = s.next id → other = id) s.eventQueue
    inferInstanceAs (Decidable (_ → ∀ other ∈ s.eventQueue, _))
  | .runFirst _ | .ran => .isTrue trivial

theorem events_scheduled_two : ∃ s, MonitorReachable Careful s ∧ s.eventQueue = [2] ∧ Scheduled s := by
  let actions : List Action := [.submit 0 10 0, .submit 0 20 5, .destroy 1]
  let careful (s : State) (a : Action) := if Careful s a then act s a else none
  have ran : (actions.foldlM careful initial).any (fun s => s.eventQueue = [2]) = true := by decide +kernel
  obtain ⟨s, run, queue⟩ := (Option.any_eq_true ..).1 ran
  have reachable : MonitorReachable Careful s := by
    refine Reachable.foldlM (fun a _ s s' done => ?_) (.initial rfl) run
    obtain ⟨allowed, done⟩ := Option.ite_none_right_eq_some.1 done
    exact .act a allowed done
  exact ⟨s, reachable, of_decide_eq_true queue, (events_scheduled s reachable).1⟩

/-- Two events with one time: when the first is destroyed, the second is still active but no longer queued. -/
theorem destroy_loses_other : ∃ s, MonitorReachable (fun _ _ => True) s ∧ s.query 2 = .pending ∧ s.Waiting 2 ∧
    2 ∉ s.eventQueue := by
  let actions : List Action := [.submit 0 10 0, .submit 0 10 5, .destroy 1]
  have ran : (actions.foldlM act initial).any (fun s => s.query 2 = .pending ∧ s.eventQueue = []) = true := by
    decide +kernel
  obtain ⟨s, run, holds⟩ := (Option.any_eq_true ..).1 ran
  obtain ⟨pending, queue⟩ := of_decide_eq_true holds
  refine ⟨s, .foldlM (fun a _ s s' done => .act a trivial done) (.initial rfl) run, pending,
    query_pending_iff.1 pending, ?_⟩
  rw [queue]
  exact List.not_mem_nil

end Prpc.Monitor
