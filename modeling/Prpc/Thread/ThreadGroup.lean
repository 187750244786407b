import Prpc.Lib.Counting
import Prpc.Thread.ChannelEntity.Linearizable

/-!
A task is a function with the `AsyncReturn` that is notified after it. The tasks go through the channel to
the threads of the group, of which there are at most `n` at any time.
-/

namespace Prpc.ThreadGroup
open Lib
open Prpc.ChannelEntity (Channel Linear)

/-- Where a thread is in the loop of `run`. -/
inductive Worker (T : Type)
  | absent
  | reading
  | executing (task : T)
  | notifying (task : T)
  | returned
  deriving DecidableEq

abbrev Tasks (κ T : Type) (n : Nat) := ChannelEntity.State (κ ⊕ Fin n) T

structure State (κ T : Type) (n : Nat) where
  tasks : Tasks κ T n
  workers : Fin n → Worker T
  executed : List T
  notified : List T

inductive Action (κ T : Type) (n : Nat)
  | asyncExec (k : κ) (task : T)
  /-- a caller has the mutex of the channel -/
  | write (k : κ) (memory : List Bool)
  | terminate
  /-- the rest of `resize`, after `join` -/
  | resize (size : Nat)
  /-- a thread of the group has the mutex of the channel -/
  | read (id : Fin n)
  | exec (id : Fin n)
  | notify (id : Fin n)

variable {κ T : Type} {n : Nat}

def start (size : Nat) : Fin n → Worker T := fun id => if id < size then .reading else .absent

def initial (capacity size : Nat) : State κ T n := ⟨ChannelEntity.initial capacity, start size, [], []⟩

def afterRead : ChannelEntity.Thread T → Worker T
  | .returned (.read _ (task :: _)) => .executing task
  | .returned _ => .returned
  | _ => .reading

def Joined (workers : Fin n → Worker T) : Prop := ∀ id, workers id = .returned ∨ workers id = .absent

def accepted (c : Tasks κ T n) : List T := Fifo.pushed (c.log.map (·.2))

def taken (c : Tasks κ T n) : List T := Fifo.popped (c.log.map (·.2))

def Drained (c : Tasks κ T n) : Prop := c.channel.closed = true ∧ c.channel.contents = []

variable [DecidableEq κ]

/-- The call of `read`, or its wait that has ended, until the mutex is left. -/
def readTask (c : Tasks κ T n) (id : Fin n) : Tasks κ T n :=
  (c.step (.inr id) c.channel (.reading 1 []) []).readStep (.inr id) 1 []

variable [DecidableEq T]

instance (workers : Fin n → Worker T) : Decidable (Joined workers) := inferInstanceAs (Decidable (∀ _, _))

def act (s : State κ T n) : Action κ T n → Option (State κ T n)
  | .asyncExec k task =>
    if (s.tasks.threads (.inl k)).Free then
      some { s with tasks := s.tasks.step (.inl k) s.tasks.channel (.writing [task] 0) [] }
    else none
  | .write k memory =>
    match s.tasks.threads (.inl k) with
    | .writing vals written => some { s with tasks := s.tasks.writeStep (.inl k) memory vals written }
    | _ => none
  | .terminate => some { s with tasks := s.tasks.setChannel s.tasks.channel.close }
  | .resize size =>
    if s.tasks.channel.closed ∧ Joined s.workers then
      some { s with tasks := s.tasks.setChannel s.tasks.channel.open_, workers := start size }
    else none
  | .read id =>
    if s.workers id = .reading then
      let tasks := readTask s.tasks id
      some { s with tasks, workers := Function.update s.workers id (afterRead (tasks.threads (.inr id))) }
    else none
  | .exec id =>
    match s.workers id with
    | .executing task =>
      some { s with workers := Function.update s.workers id (.notifying task), executed := s.executed ++ [task] }
    | _ => none
  | .notify id =>
    match s.workers id with
    | .notifying task =>
      some { s with workers := Function.update s.workers id .reading, notified := s.notified ++ [task] }
    | _ => none

inductive Step : State κ T n → State κ T n → Prop
  | act {s s' : State κ T n} (a : Action κ T n) (done : act s a = some s') : Step s s'

abbrev GroupReachable (capacity : Nat) : State κ T n → Prop :=
  Reachable (fun s => ∃ size, s = initial capacity size) Step

section
variable {capacity : Nat} {c : Tasks κ T n} {id : Fin n}

omit [DecidableEq T]

theorem taken_step (c : Tasks κ T n) (i : κ ⊕ Fin n) (channel : Channel T) (t : ChannelEntity.Thread T)
    (events : List (FifoEvent T)) : taken (c.step i channel t events) = taken c ++ Fifo.popped events := by
  simp [taken, ChannelEntity.State.step, Fifo.popped, Function.comp_def]

omit [DecidableEq κ] in
theorem taken_setChannel (c : Tasks κ T n) (channel : Channel T) : taken (c.setChannel channel) = taken c := by
  rw [taken, ChannelEntity.State.setChannel]
  split <;> simp [taken, Fifo.popped]

theorem taken_writeStep (c : Tasks κ T n) (i : κ ⊕ Fin n) (memory : List Bool) (vals : List T) (written : Nat) :
    taken (c.writeStep i memory vals written) = taken c := by
  rw [ChannelEntity.State.writeStep, taken_step, ChannelEntity.writeEvents]
  generalize (vals.drop written).take _ = pushed
  split <;> simp [Fifo.popped]

theorem drained_writeStep (drained : Drained c) (i : κ ⊕ Fin n) (memory : List Bool) (vals : List T)
    (written : Nat) : Drained (c.writeStep i memory vals written) := by
  have same : (c.writeStep i memory vals written).channel = c.channel := by
    show (c.channel.writeMany memory (vals.drop written)).2.2 = c.channel
    cases vals.drop written with
    | nil => rfl
    | cons val vals =>
      rw [Channel.writeMany, if_pos (.inr drained.1), Channel.writeUnlocked, if_pos (.inl drained.1)]
  rw [Drained, same]
  exact drained

theorem drained_readTask (drained : Drained c) (id : Fin n) : Drained (readTask c id) := by
  have nothing : c.channel.readMany 1 = ([], true, c.channel) := by
    rw [Channel.readMany, if_pos (.inr drained.1), Channel.readUnlocked_none drained.2]
  have same : (readTask c id).channel = c.channel := congrArg (·.2.2) nothing
  rw [Drained, same]
  exact drained

theorem linear_readTask (linear : Linear capacity c) : Linear capacity (readTask c id) :=
  (linear.start (.inr id) (t := .reading 1 []) fun _ => ⟨List.nil_suffix, Nat.zero_le 1⟩).readStep
    (Function.update_self ..)

/-- A thread of the group gets a task, the end of the tasks, or nothing yet. -/
theorem readTask_cases (slot : c.channel.reservedData.length ≤ 1) (id : Fin n) :
    (∃ task, afterRead ((readTask c id).threads (.inr id)) = .executing task ∧
      taken (readTask c id) = taken c ++ [task]) ∨
    taken (readTask c id) = taken c ∧ (afterRead ((readTask c id).threads (.inr id)) = .returned ∧
      Drained (readTask c id) ∨ afterRead ((readTask c id).threads (.inr id)) = .reading) := by
  have before : taken (c.step (.inr id) c.channel (.reading 1 []) []) = taken c :=
    (taken_step ..).trans (List.append_nil _)
  change (c.step (.inr id) c.channel (.reading 1 []) []).channel.reservedData.length ≤ 1 at slot
  rw [readTask]
  generalize c.step (.inr id) c.channel (.reading 1 []) [] = started at before slot ⊢
  have spec := Channel.readMany_spec 1 slot
  rw [ChannelEntity.readStep_thread, Drained, ChannelEntity.State.readStep, taken_step,
    ChannelEntity.readEvents, before]
  simp only [List.length_nil, Nat.sub_zero, List.nil_append]
  generalize started.channel.readMany 1 = result at spec ⊢
  obtain ⟨vals, returns, after⟩ := result
  -- One value was asked for: with none, the call waits on unless the channel is closed and empty.
  rcases Nat.le_one_iff_eq_zero_or_eq_one.1 spec.length with none | one
  · cases List.length_eq_zero_iff.1 none
    cases returns with
    | false => exact .inr ⟨by simp [Fifo.popped], .inr rfl⟩
    | true => exact .inr ⟨by simp [Fifo.popped], .inl ⟨rfl, spec.complete rfl Nat.zero_lt_one⟩⟩
  · obtain ⟨task, rfl⟩ := List.length_eq_one_iff.1 one
    cases returns with
    | false => exact absurd (spec.waits rfl) (Nat.lt_irrefl 1)
    | true => exact .inl ⟨task, rfl, by simp [Fifo.popped]⟩

end

variable {capacity : Nat} {s s' : State κ T n} {c : Tasks κ T n} {id : Fin n} {w : Worker T}
  {workers : Fin n → Worker T} {executed notified : List T}

def number (w : Worker T) (workers : Fin n → Worker T) : Nat := count (fun x => decide (x = w)) workers

/-- What has come to the place `w` of `run` has left it or is there. -/
def Passes (w : T → Worker T) (workers : Fin n → Worker T) (come left : List T) : Prop :=
  ∀ task, come.count task = left.count task + number (w task) workers

structure Sound (capacity : Nat) (s : State κ T n) : Prop where
  linear : Linear capacity s.tasks
  executing : Passes .executing s.workers (taken s.tasks) s.executed
  notifying : Passes .notifying s.workers s.executed s.notified
  drained : ∀ id, s.workers id = .returned → Drained s.tasks

variable {place : T → Worker T} {come left come' left' : List T}

theorem Passes.update (passes : Passes place workers come left)
    (balance : ∀ task, come'.count task + left.count task + (decide (workers id = place task)).toNat =
      come.count task + left'.count task + (decide (w = place task)).toNat) :
    Passes place (Function.update workers id w) come' left' := by
  intro task
  have before := passes task
  have moved : number (place task) (Function.update workers id w) + _ = number (place task) workers + _ :=
    count_update (fun x => decide (x = place task)) workers id w
  have change := balance task
  omega

theorem passes_iff_perm (nobody : ∀ id task, workers id ≠ place task) :
    Passes place workers come left ↔ come.Perm left := by
  rw [List.perm_iff_count]
  apply forall_congr'
  intro task
  have none : number (place task) workers = 0 := count_eq_zero.2 fun id => decide_eq_false (nobody id task)
  rw [none, Nat.add_zero]

theorem sound_start (size : Nat) (linear : Linear capacity c) (first : (taken c).Perm executed)
    (second : executed.Perm notified) : Sound capacity ⟨c, start size, executed, notified⟩ := by
  have idle : ∀ id : Fin n, (start size id : Worker T) ≠ .returned ∧
      ∀ task : T, start size id ≠ .executing task ∧ start size id ≠ .notifying task := by
    intro id
    rw [start]
    split <;> simp
  exact ⟨linear, (passes_iff_perm fun id task => ((idle id).2 task).1).2 first,
    (passes_iff_perm fun id task => ((idle id).2 task).2).2 second, fun id here => absurd here (idle id).1⟩

theorem count_single (task t : T) : [task].count t = (decide (task = t)).toNat := by
  by_cases same : task = t <;> simp [same]

section
variable (sound : Sound capacity s)
include sound

theorem Sound.outside (linear : Linear capacity c) (same : taken c = taken s.tasks)
    (drained : Drained s.tasks → Drained c) : Sound capacity { s with tasks := c } where
  linear := linear
  executing := same ▸ sound.executing
  notifying := sound.notifying
  drained id here := drained (sound.drained id here)

theorem Sound.joined (joined : Joined s.workers) :
    (taken s.tasks).Perm s.executed ∧ s.executed.Perm s.notified := by
  have idle : ∀ id task, s.workers id ≠ .executing task ∧ s.workers id ≠ .notifying task := by
    intro id task
    rcases joined id with here | here <;> simp [here]
  exact ⟨(passes_iff_perm fun id task => (idle id task).1).1 sound.executing,
    (passes_iff_perm fun id task => (idle id task).2).1 sound.notifying⟩

theorem Sound.returned (drained : Drained s.tasks ∨ w = .returned → Drained c) (j : Fin n)
    (here : Function.update s.workers id w j = .returned) : Drained c := by
  apply drained
  rcases eq_or_ne j id with rfl | ne
  · rw [Function.update_self] at here
    exact .inr here
  · rw [Function.update_of_ne ne] at here
    exact .inl (sound.drained j here)

theorem Sound.act {a : Action κ T n} (done : act s a = some s') : Sound capacity s' := by
  cases a with
  | asyncExec k task =>
    obtain ⟨-, ⟨⟩⟩ := Option.ite_none_right_eq_some.1 done
    exact sound.outside (sound.linear.start _ fun _ => ⟨List.nil_suffix, Nat.zero_le _⟩)
      ((taken_step ..).trans (List.append_nil _)) (fun drained => drained)
  | write k memory =>
    rw [ThreadGroup.act] at done
    split at done
    · rename_i vals written writing
      cases done
      exact sound.outside (sound.linear.writeStep memory writing) (taken_writeStep ..) (drained_writeStep · ..)
    · cases done
  | terminate =>
    cases done
    refine sound.outside (sound.linear.setChannel ?_ (Channel.close_capacity _) (Channel.close_contents _))
      (taken_setChannel ..) (fun drained => ⟨?_, (Channel.close_contents _).trans drained.2⟩)
    · rw [Channel.close_reservedData]
      exact sound.linear.slot
    · show s.tasks.channel.close.closed = true
      rw [Channel.close]
      split
      · exact drained.1
      · rfl
  | resize size =>
    obtain ⟨⟨-, joined⟩, ⟨⟩⟩ := Option.ite_none_right_eq_some.1 done
    -- Nobody is in the loop, so the new threads start with nothing in their hands.
    obtain ⟨first, second⟩ := sound.joined joined
    exact sound_start size (sound.linear.setChannel sound.linear.slot rfl rfl)
      ((taken_setChannel ..).symm ▸ first) second
  | read id =>
    obtain ⟨here, ⟨⟩⟩ := Option.ite_none_right_eq_some.1 done
    have drained : Drained s.tasks → Drained (readTask s.tasks id) := (drained_readTask · id)
    have linear : Linear capacity (readTask s.tasks id) := linear_readTask sound.linear
    rcases readTask_cases sound.linear.slot id with ⟨task, after, more⟩ | ⟨same, ⟨after, finished⟩ | after⟩
    · refine ⟨linear, sound.executing.update fun t => ?_, sound.notifying.update (by simp [here, after]),
        sound.returned (by simpa [after] using drained)⟩
      simp [more, here, after, count_single]
      omega
    · exact ⟨linear, sound.executing.update (by simp [here, same, after]),
        sound.notifying.update (by simp [here, after]), sound.returned fun _ => finished⟩
    · exact ⟨linear, sound.executing.update (by simp [here, same, after]),
        sound.notifying.update (by simp [here, after]), sound.returned (by simpa [after] using drained)⟩
  | exec id =>
    rw [ThreadGroup.act] at done
    split at done
    · rename_i task here
      cases done
      refine ⟨sound.linear, sound.executing.update fun t => ?_, sound.notifying.update fun t => ?_,
        sound.returned (by simp)⟩
      all_goals
        simp [here, count_single]
        omega
    · cases done
  | notify id =>
    rw [ThreadGroup.act] at done
    split at done
    · rename_i task here
      cases done
      refine ⟨sound.linear, sound.executing.update (by simp [here]), sound.notifying.update fun t => ?_,
        sound.returned (by simp)⟩
      simp [here, count_single]
      omega
    · cases done

end

theorem sound_of_reachable (reachable : GroupReachable capacity s) : Sound capacity s := by
  apply Reachable.invariant (Sound capacity) _ _ reachable
  · intro s start
    obtain ⟨size, rfl⟩ := start
    exact sound_start size (ChannelEntity.linear_initial capacity) (.refl []) (.refl [])
  · intro s s' sound step
    obtain ⟨a, done⟩ := step
    exact sound.act done

/-- Two threads share two tasks; the channel is closed before the second one is executed. -/
theorem two_share : ∃ s : State Unit Nat 2, GroupReachable 4 s ∧ Joined s.workers ∧ s.workers 0 = .returned ∧
    accepted s.tasks = [7, 8] ∧ s.executed = [7, 8] := by
  let actions : List (Action Unit Nat 2) := [.asyncExec () 7, .write () [], .read 0, .asyncExec () 8, .write () [],
    .read 1, .exec 0, .terminate, .exec 1, .notify 1, .notify 0, .read 0, .read 1]
  have ran : (actions.foldlM act (initial 4 2)).any (fun s => decide (Joined s.workers ∧
      s.workers 0 = .returned ∧ accepted s.tasks = [7, 8] ∧ s.executed = [7, 8])) = true := by
    decide +kernel
  obtain ⟨s, run, found⟩ := (Option.any_eq_true ..).1 ran
  exact ⟨s, .foldlM (fun a _ _ _ done => .act a done) (.initial ⟨2, rfl⟩) run, of_decide_eq_true found⟩

/-- Every task that `async_exec` has put into the channel is there, in the hands of one thread, or done. -/
theorem tasks_run_once (reachable : GroupReachable capacity s) (task : T) :
    (accepted s.tasks).count task = s.tasks.channel.contents.count task +
      number (.executing task) s.workers + s.executed.count task ∧
    s.executed.count task = number (.notifying task) s.workers + s.notified.count task ∧
    taken s.tasks <+: accepted s.tasks := by
  have sound := sound_of_reachable reachable
  have total : (accepted s.tasks).count task = (taken s.tasks).count task + s.tasks.channel.contents.count task := by
    rw [← List.count_append]
    exact congrArg (List.count task) sound.linear.history.conserved
  have first := sound.executing task
  have second := sound.notifying task
  exact ⟨by omega, by omega, sound.linear.history.popped_isPrefix⟩

theorem tasks_run_once_two : ∃ s : State Unit Nat 2, s.executed = [7, 8] ∧ 1 =
    number (.notifying 8) s.workers + s.notified.count 8 := by
  obtain ⟨s, reachable, -, -, -, executed⟩ := two_share
  have once := (tasks_run_once reachable 8).2.1
  rw [executed] at once
  exact ⟨s, executed, once⟩

theorem group_joined (reachable : GroupReachable capacity s) (joined : Joined s.workers)
    (someone : ∃ id, s.workers id = .returned) :
    s.executed.Perm (accepted s.tasks) ∧ s.notified.Perm (accepted s.tasks) := by
  have sound := sound_of_reachable reachable
  obtain ⟨id, place⟩ := someone
  have everything : accepted s.tasks = taken s.tasks := by
    have conserved : [] ++ accepted s.tasks = taken s.tasks ++ s.tasks.channel.contents :=
      sound.linear.history.conserved
    rwa [(sound.drained id place).2, List.append_nil] at conserved
  obtain ⟨executed, notified⟩ := sound.joined joined
  rw [everything]
  exact ⟨executed.symm, (executed.trans notified).symm⟩

theorem group_joined_two : ∃ s : State Unit Nat 2, Joined s.workers ∧ s.notified.Perm [7, 8] := by
  obtain ⟨s, reachable, joined, returned, accepted, -⟩ := two_share
  have done := (group_joined reachable joined ⟨0, returned⟩).2
  rw [accepted] at done
  exact ⟨s, joined, done⟩

end Prpc.ThreadGroup
