import Prpc.Thread.ChannelReplicator.Broadcast

/-!
A replicating thread returns when the cache is drained and `_caching_closed` is set.
-/

namespace Prpc.ChannelReplicator
open Lib

variable {T : Type} {c : Setup} {s s' : State T}

structure Quiet (s s' : State T) : Prop where
  starting : s'.starting = s.starting
  closed : s'.cachingClosed = s.cachingClosed
  caching : s'.caching = .returned → s.caching = .returned
  waiting : ∀ i, s'.replicating i = .waiting → s.replicating i = .waiting ∨ s.cachingClosed = false

theorem Caching.of_notify_returned {pc : Caching T} (returned : pc.notify = .returned) : pc = .returned := by
  cases pc with
  | returned => rfl
  | _ => cases returned

theorem Replicating.notify_ne_waiting (pc : Replicating T) : pc.notify ≠ .waiting := by
  cases pc <;> nofun

theorem quiet_setReplicating (s : State T) (i : Nat) (pc : Replicating T)
    (waits : pc = .waiting → s.replicating i = .waiting ∨ s.cachingClosed = false) :
    Quiet s (s.setReplicating i pc) := by
  refine ⟨rfl, rfl, id, fun j waiting => ?_⟩
  rcases eq_or_ne j i with rfl | ne
  · simp only [State.setReplicating, Function.update_self] at waiting
    exact waits waiting
  · simp only [State.setReplicating, Function.update_of_ne ne] at waiting
    exact .inl waiting

theorem Quiet.trans {s'' : State T} (first : Quiet s s') (second : Quiet s' s'') : Quiet s s'' := by
  refine ⟨second.starting.trans first.starting, second.closed.trans first.closed,
    fun returned => first.caching (second.caching returned), fun i waiting => ?_⟩
  rcases second.waiting i waiting with waiting | isOpen
  · exact first.waiting i waiting
  · exact .inr (first.closed.symm.trans isOpen)

theorem quiet_moveBegin (s : State T) (pos : Nat) : Quiet s (s.moveBegin pos) := by
  rw [State.moveBegin]
  split
  · exact ⟨rfl, rfl, Caching.of_notify_returned, fun _ => .inl⟩
  · exact ⟨rfl, rfl, id, fun _ => .inl⟩

theorem quiet_copied (s : State T) (i pos : Nat) (t : T) : Quiet s (s.copied i pos t) := by
  have advanced : Quiet s { s with readPos := s.readPos.set i (s.advancePos pos) } :=
    ⟨rfl, rfl, id, fun _ => .inl⟩
  exact (advanced.trans (quiet_moveBegin ..)).trans (quiet_setReplicating _ i (.writing t) nofun)

theorem act_cases {a : Action T} (done : act c s a = some s') : (a = .start ∧ s.start c = some s') ∨
    (s.caching = .closing ∧ s' = { s with cachingClosed := true, caching := .returned }.notifyAll) ∨
    Quiet s s' := by
  cases a with
  | send t =>
    obtain ⟨-, ⟨⟩⟩ := Option.ite_none_left_eq_some.1 done
    exact .inr (.inr ⟨rfl, rfl, id, fun _ => .inl⟩)
  | close =>
    cases done
    exact .inr (.inr ⟨rfl, rfl, id, fun _ => .inl⟩)
  | start => exact .inl ⟨rfl, done⟩
  | read =>
    rw [act, State.read] at done
    split at done
    · cases done
      exact .inr (.inr ⟨rfl, rfl, by simp, fun _ => .inl⟩)
    · obtain ⟨-, ⟨⟩⟩ := Option.ite_none_right_eq_some.1 done
      exact .inr (.inr ⟨rfl, rfl, by simp, fun _ => .inl⟩)
    · cases done
  | cache =>
    rw [act, State.cache] at done
    split at done
    · split at done
      · cases done
        exact .inr (.inr ⟨rfl, rfl, by simp, fun _ => .inl⟩)
      · cases done
        exact .inr (.inr ⟨rfl, rfl, by simp [State.notifyAll], fun i waiting =>
          absurd waiting (s.replicating i).notify_ne_waiting⟩)
    · rename_i closing
      cases done
      exact .inr (.inl ⟨closing, rfl⟩)
    · cases done
  | replicate i =>
    rw [act, State.replicate] at done
    split at done
    · split at done
      · cases done
        refine .inr (.inr (quiet_setReplicating s i _ fun waits => .inr ?_))
        by_contra closed
        rw [if_pos (Bool.not_eq_false _ ▸ closed)] at waits
        cases waits
      · obtain ⟨t, -, rfl⟩ := Option.map_eq_some_iff.1 done
        exact .inr (.inr (quiet_copied s i _ t))
    · cases done
  | write i =>
    rw [act, State.write] at done
    split at done
    · rename_i t _
      cases done
      have wrote := quiet_setReplicating { s with written := Function.update s.written i (s.written i ++ [t]) }
        i .locking (by simp)
      exact .inr (.inr ⟨wrote.starting, wrote.closed, wrote.caching, wrote.waiting⟩)
    · cases done
  | wakeCaching =>
    cases done
    exact .inr (.inr ⟨rfl, rfl, Caching.of_notify_returned, fun _ => .inl⟩)
  | wakeReplicating i =>
    cases done
    exact .inr (.inr (quiet_setReplicating s i _ fun waits =>
      absurd waits (s.replicating i).notify_ne_waiting))

structure Ending (s : State T) : Prop where
  closed : s.starting.opened = true → s.caching = .returned → s.cachingClosed = true
  waiting : ∀ i, s.replicating i = .waiting → s.cachingClosed = false

theorem Ending.quiet (inv : Ending s) (quiet : Quiet s s') : Ending s' := by
  constructor
  · rw [quiet.starting, quiet.closed]
    exact fun opened returned => inv.closed opened (quiet.caching returned)
  · intro i waiting
    rw [quiet.closed]
    exact (quiet.waiting i waiting).elim (inv.waiting i) id

theorem Ending.start (inv : Ending s) (inTime : s.starting = .setOpen → s.caching ≠ .returned)
    (done : s.start c = some s') : Ending s' := by
  rw [State.start] at done
  split at done
  · cases done
    exact ⟨by simp, inv.waiting⟩
  · rename_i setOpen
    cases done
    exact ⟨fun _ returned => absurd returned (inTime setOpen), fun _ _ => rfl⟩
  · rename_i resize
    cases done
    exact ⟨fun _ => inv.closed (by rw [resize]; rfl), inv.waiting⟩
  · rename_i i starting
    obtain ⟨-, ⟨⟩⟩ := Option.ite_none_right_eq_some.1 done
    have counted : Ending { s with starting := .startReplicating (i + 1) } :=
      ⟨fun _ => inv.closed (by rw [starting]; rfl), inv.waiting⟩
    exact counted.quiet (quiet_setReplicating _ i .locking (by simp))

def State.Initialized (c : Setup) (s : State T) : Prop := s.starting = .startReplicating c.outputs

instance (c : Setup) (s : State T) : Decidable (s.Initialized c) := inferInstanceAs (Decidable (_ = _))

theorem start_rest (left i : Nat) (starting : s.starting = .startReplicating i) (rest : i + left = c.outputs) :
    ∃ s', (List.replicate left Action.start).foldlM (act c) s = some s' ∧ s'.Initialized c ∧
      s'.caching = s.caching ∧ s'.cachingClosed = s.cachingClosed := by
  induction left generalizing s i with
  | zero => exact ⟨s, rfl, starting.trans (congrArg _ rest), rfl, rfl⟩
  | succ left ih =>
    have more : i < c.outputs := by omega
    have start : act c s .start = some ({ s with starting := .startReplicating (i + 1) }.setReplicating i .locking) := by
      rw [act, State.start, starting]
      exact if_pos more
    obtain ⟨s', run, initialized, caching, closed⟩ :=
      ih (s := { s with starting := .startReplicating (i + 1) }.setReplicating i .locking) (i + 1) rfl (by omega)
    refine ⟨s', ?_, initialized, caching, closed⟩
    rw [List.replicate_succ, List.foldlM_cons, start]
    exact run

def State.Joined (c : Setup) (s : State T) : Prop :=
  s.Initialized c ∧ (s.caching matches .returned) ∧ ∀ i < c.outputs, (s.replicating i matches .returned)

instance (c : Setup) (s : State T) : Decidable (s.Joined c) := inferInstanceAs (Decidable (_ ∧ _ ∧ _))

def State.finalize (s : State T) : State T :=
  { s with
    begin_ := 0, end_ := 0, dataCache := [], readPos := [], received := [],
    replicating := fun _ => .notStarted, written := fun _ => [] }

def State.initializeWith [Inhabited T] (c : Setup) (s : State T) : State T :=
  { s with
    inputClosed := false,
    dataCache := s.dataCache ++ List.replicate (c.cacheSize + 1 - s.dataCache.length) default,
    starting := .startCaching }

structure Replicator (T : Type) where
  setup : Setup
  inited : Bool
  state : State T

inductive RoundAction (T : Type)
  | run (a : Action T)
  | finalize
  | initializeWith (c : Setup)

variable [Inhabited T] {r r' : Replicator T}

def Replicator.act (r : Replicator T) : RoundAction T → Option (Replicator T)
  | .run a => (ChannelReplicator.act r.setup r.state a).map fun s => { r with state := s }
  | .finalize =>
    if r.inited ∧ r.state.Joined r.setup then some { r with inited := false, state := r.state.finalize }
    else none
  | .initializeWith c => if r.inited then none else some ⟨c, true, r.state.initializeWith c⟩

inductive RoundStep (allowed : Replicator T → RoundAction T → Prop) : Replicator T → Replicator T → Prop
  | act {r r' : Replicator T} (a : RoundAction T) (allows : allowed r a) (done : r.act a = some r') :
      RoundStep allowed r r'

abbrev RoundsReachable (c : Setup) (allowed : Replicator T → RoundAction T → Prop) : Replicator T → Prop :=
  Reachable (fun r => r = ⟨c, true, initial c⟩) (RoundStep allowed)

def InTime (r : Replicator T) : RoundAction T → Prop
  | .run .start => r.state.starting = .setOpen → r.state.caching ≠ .returned
  | _ => True

theorem Ending.act (inv : Ending r.state) {a : RoundAction T} (inTime : InTime r a)
    (done : r.act a = some r') : Ending r'.state := by
  cases a with
  | run a =>
    obtain ⟨s', step, rfl⟩ := Option.map_eq_some_iff.1 done
    rcases act_cases step with ⟨rfl, start⟩ | ⟨closing, rfl⟩ | quiet
    · exact inv.start inTime start
    · exact ⟨fun _ _ => rfl, fun i waiting => absurd waiting (Replicating.notify_ne_waiting _)⟩
    · exact inv.quiet quiet
  | finalize =>
    obtain ⟨-, ⟨⟩⟩ := Option.ite_none_right_eq_some.1 done
    exact ⟨inv.closed, fun i => nofun⟩
  | initializeWith c =>
    obtain ⟨-, ⟨⟩⟩ := Option.ite_none_left_eq_some.1 done
    exact ⟨nofun, inv.waiting⟩

theorem ending_of_reachable (reachable : RoundsReachable c InTime r) : Ending r.state := by
  refine Reachable.invariant (fun r => Ending r.state) (fun r start => ?_) (fun r r' inv step => ?_) reachable
  · rw [start]
    exact ⟨nofun, fun i => nofun⟩
  · obtain ⟨a, inTime, done⟩ := step
    exact inv.act inTime done

theorem foldlM_run (actions : List (Action T)) (run : actions.foldlM (act r.setup) r.state = some s') :
    (actions.map RoundAction.run).foldlM Replicator.act r = some { r with state := s' } := by
  induction actions generalizing r with
  | nil =>
    cases run
    rfl
  | cons a actions ih =>
    rw [List.foldlM_cons, Option.bind_eq_bind, Option.bind_eq_some_iff] at run
    obtain ⟨s₁, done, run⟩ := run
    have step : r.act (.run a) = some { r with state := s₁ } := by
      rw [Replicator.act, done]
      rfl
    rw [List.map_cons, List.foldlM_cons, step]
    exact ih (r := { r with state := s₁ }) run

theorem end_missed {a : RoundAction T} (late : ¬ InTime r a) : ∃ actions r',
    (a :: actions).foldlM Replicator.act r = some r' ∧ r'.state.Initialized r'.setup ∧
      r'.state.caching = .returned ∧ r'.state.cachingClosed = false := by
  obtain ⟨rfl, starting, returned⟩ : a = .run .start ∧ r.state.starting = .setOpen ∧
      r.state.caching = .returned := by
    rw [InTime.eq_def] at late
    split at late
    · exact ⟨rfl, by simpa only [Classical.not_imp, not_not] using late⟩
    · exact absurd trivial late
  have first : [Action.start, .start].foldlM (act r.setup) r.state = some { r.state with
      cachingClosed := false, readPos := List.replicate r.setup.outputs 0, starting := .startReplicating 0 } := by
    simp only [List.foldlM_cons, act, State.start, starting, Option.bind_eq_bind, Option.bind_some]
    rfl
  obtain ⟨s', run, initialized, caching, closed⟩ := start_rest (c := r.setup) (s := { r.state with
    cachingClosed := false, readPos := List.replicate r.setup.outputs 0, starting := .startReplicating 0 })
    r.setup.outputs 0 rfl (Nat.zero_add _)
  refine ⟨(.start :: List.replicate r.setup.outputs .start).map .run, { r with state := s' }, ?_, initialized,
    caching.trans returned, closed⟩
  refine foldlM_run (.start :: .start :: List.replicate r.setup.outputs .start) ?_
  rw [show Action.start :: .start :: List.replicate r.setup.outputs .start =
    [.start, .start] ++ List.replicate r.setup.outputs (Action.start : Action T) from rfl, List.foldlM_append, first]
  exact run

/-- In every run over any number of rounds in which `initialize` clears the flag in time, it is set whenever
`initialize` and the caching thread have returned, and no thread waits then; and a run in which it is too
late can end with both of them returned and the flag clear. -/
theorem end_of_input_seen (c : Setup) (r : Replicator T) :
    (RoundsReachable c InTime r → r.state.Initialized r.setup → r.state.caching = .returned →
      r.state.cachingClosed = true ∧ ∀ i, r.state.replicating i ≠ .waiting) ∧
    (∀ a, ¬ InTime r a → ∃ actions r', (a :: actions).foldlM Replicator.act r = some r' ∧
      r'.state.Initialized r'.setup ∧ r'.state.caching = .returned ∧ r'.state.cachingClosed = false) := by
  constructor
  · intro reachable initialized returned
    have inv := ending_of_reachable reachable
    have closed := inv.closed (by rw [initialized]; rfl) returned
    refine ⟨closed, fun i waiting => ?_⟩
    rw [inv.waiting i waiting] at closed
    cases closed
  · intro a late
    exact end_missed late

instance [DecidableEq T] (r : Replicator T) : (a : RoundAction T) → Decidable (InTime r a)
  | .run .start => inferInstanceAs (Decidable (_ → _))
  | .run (.send _) | .run .close | .run .read | .run .cache | .run (.replicate _) | .run (.write _) |
    .run .wakeCaching | .run (.wakeReplicating _) | .finalize | .initializeWith _ => .isTrue trivial

theorem end_of_input_seen_twice : ∃ (c : Setup) (r : Replicator Nat), RoundsReachable c InTime r ∧
    r.state.Initialized r.setup ∧ r.state.caching = .returned ∧ r.state.cachingClosed = true := by
  let c : Setup := ⟨2, 1, by decide, by decide⟩
  let round : List (RoundAction Nat) :=
    [.run .start, .run .start, .run .start, .run .start, .run .start, .run .close, .run .read, .run .cache]
  let actions := round ++ [.run (.replicate 0), .run (.replicate 1), .finalize, .initializeWith c] ++ round
  let inTime (r : Replicator Nat) (a : RoundAction Nat) := if InTime r a then r.act a else none
  have ran : (actions.foldlM inTime ⟨c, true, initial c⟩).any (fun r =>
      r.state.Initialized r.setup ∧ r.state.caching = .returned) = true := by decide +kernel
  obtain ⟨r, run, holds⟩ := (Option.any_eq_true ..).1 ran
  obtain ⟨initialized, returned⟩ := of_decide_eq_true holds
  have reachable : RoundsReachable c InTime r := by
    refine Reachable.foldlM (fun a _ r r' done => ?_) (.initial rfl) run
    obtain ⟨allowed, done⟩ := Option.ite_none_right_eq_some.1 done
    exact .act a allowed done
  exact ⟨c, r, reachable, initialized, returned, ((end_of_input_seen c r).1 reachable initialized returned).1⟩

/-- The input is closed and the caching thread returns before the flag is cleared: both replicating threads
wait. -/
theorem end_of_input_missed : ∃ (c : Setup) (r : Replicator Nat), RoundsReachable c (fun _ _ => True) r ∧
    r.state.Initialized r.setup ∧ r.state.caching = .returned ∧ r.state.cachingClosed = false ∧
    r.state.replicating 0 = .waiting ∧ r.state.replicating 1 = .waiting := by
  let c : Setup := ⟨2, 1, by decide, by decide⟩
  let actions : List (RoundAction Nat) := [.run .start, .run .close, .run .read, .run .cache, .run .start,
    .run .start, .run .start, .run .start, .run (.replicate 0), .run (.replicate 1)]
  have ran : (actions.foldlM Replicator.act ⟨c, true, initial c⟩).any (fun r =>
      r.state.Initialized r.setup ∧ r.state.caching = .returned ∧ r.state.cachingClosed = false ∧
      r.state.replicating 0 = .waiting ∧ r.state.replicating 1 = .waiting) = true := by decide +kernel
  obtain ⟨r, run, holds⟩ := (Option.any_eq_true ..).1 ran
  exact ⟨c, r, .foldlM (fun a _ _ _ done => .act a trivial done) (.initial rfl) run, of_decide_eq_true holds⟩

end Prpc.ChannelReplicator
