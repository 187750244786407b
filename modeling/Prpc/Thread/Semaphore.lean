import Prpc.Lib.Counting
import Prpc.Lib.Transition

/-!
What a thread does while it has the mutex is one step. A notification wakes one of the threads that sleep,
no matter which, and a thread may also wake by itself or at its deadline.
-/

namespace Prpc.Semaphore
open Lib

inductive Thread
  | idle
  /-- in `acquire` or, with a deadline, in `acquire_for`, on the way to the mutex -/
  | entering (timed : Bool)
  | asleep (timed : Bool)
  | woken (timed : Bool)
  | returned (isOk : Bool)
  deriving DecidableEq

namespace Thread

def isFree : Thread → Bool
  | idle | returned _ => true
  | _ => false

def isAsleep : Thread → Bool
  | asleep _ => true
  | _ => false

def isWoken : Thread → Bool
  | woken _ => true
  | _ => false

def wake : Thread → Thread
  | asleep timed => woken timed
  | t => t

theorem wake_isAsleep (t : Thread) : t.wake.isAsleep = false := by cases t <;> rfl

theorem isWoken_of {t : Thread} (other : t.isFree = true ∨ t.isAsleep = true) : t.isWoken = false := by
  cases t with
  | woken timed => rcases other with free | asleep <;> contradiction
  | _ => rfl

end Thread

structure State (ι : Type) where
  count : Nat
  threads : ι → Thread
  /-- the permits given and taken since the last `set` -/
  released : Nat
  acquired : Nat

variable {ι : Type} [Fintype ι] [DecidableEq ι]

def initial (count : UInt32) : State ι := ⟨count.toNat, fun _ => .idle, count.toNat, 0⟩

/-- `notify_one` with the thread that it wakes; when nobody sleeps it does nothing. -/
def notifyOne (threads : ι → Thread) (i : ι) : Option (ι → Thread) :=
  if (threads i).isAsleep ∨ ∀ j, (threads j).isAsleep = false then
    some (Function.update threads i (threads i).wake)
  else none

namespace State

def move (s : State ι) (i : ι) (t : Thread) : State ι := { s with threads := Function.update s.threads i t }

def take (s : State ι) (i : ι) : State ι :=
  { s.move i (.returned true) with count := s.count - 1, acquired := s.acquired + 1 }

def set (s : State ι) (count : UInt32) : State ι :=
  ⟨count.toNat, fun i => (s.threads i).wake, count.toNat, 0⟩

/-- With the mutex: the condition of the wait, and the rest of the call if it holds. -/
def check (s : State ι) (i : ι) (timed late : Bool) : State ι :=
  if s.count > 0 then s.take i
  else s.move i (if timed && late then .returned false else .asleep timed)

/-- `release(num)` with the threads that its `num` notifications wake. -/
def release (s : State ι) (wakes : List ι) : Option (State ι) :=
  if wakes.length < 2 ^ 32 then
    (wakes.foldlM notifyOne s.threads).map fun threads =>
      ⟨(s.count + wakes.length) % 2 ^ 32, threads, s.released + wakes.length, s.acquired⟩
  else none

def tryAcquire (s : State ι) (i : ι) (tryLock : Bool) : State ι :=
  if tryLock ∧ s.count > 0 then s.take i else s.move i (.returned false)

end State

inductive Action (ι : Type)
  | set (count : UInt32)
  | release (wakes : List ι)
  | acquire (i : ι) (timed : Bool)
  | tryAcquire (i : ι) (tryLock : Bool)
  /-- the thread has the mutex, for the first time or after its wait, which may say that it was too late -/
  | lock (i : ι) (late : Bool)
  /-- spuriously, or at the deadline -/
  | wake (i : ι)

def act (s : State ι) : Action ι → Option (State ι)
  | .set count => some (s.set count)
  | .release wakes => s.release wakes
  | .acquire i timed => if (s.threads i).isFree then some (s.move i (.entering timed)) else none
  | .tryAcquire i tryLock => if (s.threads i).isFree then some (s.tryAcquire i tryLock) else none
  | .lock i late =>
    match s.threads i with
    | .entering timed => some (s.check i timed false)
    | .woken timed => some (s.check i timed late)
    | _ => none
  | .wake i => if (s.threads i).isAsleep then some (s.move i (s.threads i).wake) else none

inductive Step : State ι → State ι → Prop
  | act {s s' : State ι} (a : Action ι) (done : act s a = some s') : Step s s'

abbrev SemaphoreReachable : State ι → Prop := Reachable (fun s => ∃ count, s = initial count) Step

variable {s s' : State ι} {threads threads' : ι → Thread} {i : ι} {t : Thread}

def Sleepers (threads : ι → Thread) : Prop := ∃ i, (threads i).isAsleep = true

omit [Fintype ι] in
theorem sleepers_of_update (awake : t.isAsleep = false)
    (sleepers : Sleepers (Function.update threads i t)) : Sleepers threads := by
  obtain ⟨j, asleep⟩ := sleepers
  rcases eq_or_ne j i with rfl | ne
  · rw [Function.update_self, awake] at asleep
    cases asleep
  · rw [Function.update_of_ne ne] at asleep
    exact ⟨j, asleep⟩

theorem notifyOne_woken (notified : notifyOne threads i = some threads') (sleepers : Sleepers threads') :
    Sleepers threads ∧ count Thread.isWoken threads' = count Thread.isWoken threads + 1 := by
  obtain ⟨who, ⟨⟩⟩ := Option.ite_none_right_eq_some.1 notified
  -- Somebody sleeps even now, so there was a thread to wake.
  have before := sleepers_of_update (threads i).wake_isAsleep sleepers
  have moved := count_update Thread.isWoken threads i (threads i).wake
  rcases who with asleep | nobody
  · cases place : threads i with
    | asleep timed =>
      rw [place] at moved
      exact ⟨before, moved⟩
    | _ =>
      rw [place] at asleep
      cases asleep
  · obtain ⟨j, asleep⟩ := before
    rw [nobody j] at asleep
    cases asleep

theorem notifications_woken {wakes : List ι} (notified : wakes.foldlM notifyOne threads = some threads')
    (sleepers : Sleepers threads') : Sleepers threads ∧
      count Thread.isWoken threads' = count Thread.isWoken threads + wakes.length := by
  induction wakes generalizing threads with
  | nil =>
    cases notified
    exact ⟨sleepers, rfl⟩
  | cons i wakes ih =>
    rw [List.foldlM_cons, Option.bind_eq_bind, Option.bind_eq_some_iff] at notified
    obtain ⟨threads₁, first, rest⟩ := notified
    obtain ⟨sleepers₁, more⟩ := ih rest
    obtain ⟨sleepers₀, one⟩ := notifyOne_woken first sleepers₁
    rw [List.length_cons, more, one]
    exact ⟨sleepers₀, by omega⟩

/-- As long as somebody sleeps, every permit is waited for by a thread that is already awake. -/
structure Sound (s : State ι) : Prop where
  wakeups : Sleepers s.threads → s.count ≤ count Thread.isWoken s.threads
  ledger : s.released < 2 ^ 32 → s.acquired + s.count = s.released

section
variable (sound : Sound s)
include sound

theorem Sound.move (awake : t.isAsleep = false) (other : (s.threads i).isWoken = false) :
    Sound (s.move i t) := by
  refine ⟨fun sleepers => ?_, sound.ledger⟩
  have enough := sound.wakeups (sleepers_of_update awake sleepers)
  have moved := count_update Thread.isWoken s.threads i t
  rw [other, Bool.toNat_false] at moved
  show s.count ≤ count Thread.isWoken (Function.update s.threads i t)
  omega

theorem Sound.take (i : ι) (some_left : s.count > 0) : Sound (s.take i) := by
  refine ⟨fun sleepers => ?_, fun small => ?_⟩
  · have enough := sound.wakeups (sleepers_of_update rfl sleepers)
    have moved := count_update Thread.isWoken s.threads i (.returned true)
    have one := Bool.toNat_le (s.threads i).isWoken
    show s.count - 1 ≤ count Thread.isWoken (Function.update s.threads i (.returned true))
    change _ = _ + 0 at moved
    omega
  · have balance := sound.ledger small
    show s.acquired + 1 + (s.count - 1) = s.released
    omega

theorem Sound.check (i : ι) (timed late : Bool) : Sound (s.check i timed late) := by
  rw [State.check]
  split
  · rename_i some_left
    exact sound.take i some_left
  · rename_i none_left
    -- Whoever goes to sleep here has seen that there is no permit.
    exact ⟨fun _ => Nat.le_trans (Nat.le_of_not_gt none_left) (Nat.zero_le _), sound.ledger⟩

theorem Sound.release {wakes : List ι} (done : s.release wakes = some s') : Sound s' := by
  obtain ⟨-, done⟩ := Option.ite_none_right_eq_some.1 done
  obtain ⟨threads, notified, ⟨⟩⟩ := Option.map_eq_some_iff.1 done
  refine ⟨fun sleepers => ?_, fun small => ?_⟩
  · obtain ⟨before, more⟩ := notifications_woken notified sleepers
    have enough := sound.wakeups before
    -- An overflow only loses permits.
    show (s.count + wakes.length) % 2 ^ 32 ≤ count Thread.isWoken threads
    omega
  · change s.released + wakes.length < 2 ^ 32 at small
    have balance := sound.ledger (by omega)
    show s.acquired + (s.count + wakes.length) % 2 ^ 32 = s.released + wakes.length
    omega

theorem Sound.act {a : Action ι} (done : act s a = some s') : Sound s' := by
  cases a with
  | set c =>
    cases done
    refine ⟨fun sleepers => ?_, fun _ => Nat.zero_add _⟩
    obtain ⟨i, asleep⟩ := sleepers
    cases asleep.symm.trans (Thread.wake_isAsleep _)
  | release wakes => exact sound.release done
  | acquire i timed =>
    obtain ⟨free, ⟨⟩⟩ := Option.ite_none_right_eq_some.1 done
    exact sound.move rfl (Thread.isWoken_of (.inl free))
  | tryAcquire i tryLock =>
    obtain ⟨free, ⟨⟩⟩ := Option.ite_none_right_eq_some.1 done
    rw [State.tryAcquire]
    split
    · rename_i ready
      exact sound.take i ready.2
    · exact sound.move rfl (Thread.isWoken_of (.inl free))
  | lock i late =>
    rw [Semaphore.act] at done
    split at done
    · cases done
      exact sound.check i _ _
    · cases done
      exact sound.check i _ _
    · cases done
  | wake i =>
    obtain ⟨asleep, ⟨⟩⟩ := Option.ite_none_right_eq_some.1 done
    exact sound.move (Thread.wake_isAsleep _) (Thread.isWoken_of (.inr asleep))

end

theorem sound_of_reachable (reachable : SemaphoreReachable s) : Sound s := by
  apply Reachable.invariant Sound _ _ reachable
  · intro s start
    obtain ⟨c, rfl⟩ := start
    refine ⟨fun sleepers => ?_, fun _ => Nat.zero_add _⟩
    obtain ⟨i, ⟨⟩⟩ := sleepers
  · intro s s' sound step
    obtain ⟨a, done⟩ := step
    exact sound.act done

/-- One thread takes the only permit and then sleeps like the other, until it is woken for a second permit. -/
theorem two_contend : ∃ s : State (Fin 2), SemaphoreReachable s ∧ Sleepers s.threads ∧ s.count = 1 ∧
    s.released = 2 ∧ (s.threads 0).isWoken = true := by
  let actions : List (Action (Fin 2)) := [.acquire 0 false, .lock 0 false, .acquire 0 true, .lock 0 false,
    .acquire 1 false, .lock 1 false, .release [0]]
  have ran : (actions.foldlM act (initial 1)).any (fun s => decide ((s.threads 1).isAsleep = true ∧
      s.count = 1 ∧ s.released = 2 ∧ (s.threads 0).isWoken = true)) = true := by
    decide +kernel
  obtain ⟨s, run, found⟩ := (Option.any_eq_true ..).1 ran
  obtain ⟨asleep, rest⟩ := of_decide_eq_true found
  exact ⟨s, .foldlM (fun a _ _ _ done => .act a done) (.initial ⟨1, rfl⟩) run, ⟨1, asleep⟩, rest⟩

theorem semaphore_no_lost_wakeup (reachable : SemaphoreReachable s) (sleepers : Sleepers s.threads) :
    s.count ≤ count Thread.isWoken s.threads ∧
    ∀ i late, (s.threads i).isWoken = true → s.count > 0 → act s (.lock i late) = some (s.take i) := by
  refine ⟨(sound_of_reachable reachable).wakeups sleepers, fun i late woken some_left => ?_⟩
  cases place : s.threads i with
  | woken timed => simp [act, place, State.check, some_left]
  | _ =>
    rw [place] at woken
    cases woken

theorem semaphore_no_lost_wakeup_two : ∃ s : State (Fin 2), s.count = 1 ∧ Sleepers s.threads ∧
    act s (.lock 0 true) = some (s.take 0) := by
  obtain ⟨s, reachable, sleepers, one, -, woken⟩ := two_contend
  have enough := semaphore_no_lost_wakeup reachable sleepers
  exact ⟨s, one, sleepers, enough.2 0 true woken (one ▸ Nat.one_pos)⟩

theorem semaphore_permits (reachable : SemaphoreReachable s) (small : s.released < 2 ^ 32) :
    s.acquired + s.count = s.released :=
  (sound_of_reachable reachable).ledger small

theorem semaphore_permits_two : ∃ s : State (Fin 2), s.count = 1 ∧ s.acquired + s.count = 2 := by
  obtain ⟨s, reachable, -, one, released, -⟩ := two_contend
  have balance := semaphore_permits reachable (by omega)
  exact ⟨s, one, balance.trans released⟩

end Prpc.Semaphore
