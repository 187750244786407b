import Prpc.Thread.ChannelEntity.Sections

namespace Prpc.ChannelEntity
open Lib

variable {ι T : Type} [DecidableEq ι] {s s' : State ι T} {capacity : Nat} {i : ι}

def eventsOf (i : ι) (log : List (Option ι × FifoEvent T)) : List (FifoEvent T) :=
  (log.filter (·.1 = some i)).map (·.2)

def Answers (events : List (FifoEvent T)) : Thread T → Prop
  | .idle => True
  | .reading asked got => got.map .pop <:+ events ∧ got.length ≤ asked
  | .writing vals written => (vals.take written).map .push <:+ events ∧ written ≤ vals.length
  | .returned (.read asked got) => readEvents asked got true <:+ events
  | .returned (.wrote vals written) => writeEvents vals written true <:+ events
  | .returned (.tryRead (some val)) => [.pop val] <:+ events
  | .returned (.tryRead none) => [.tryEmpty] <:+ events
  | .returned (.tryWrote val done) => [if done then .push val else .tryReject] <:+ events

theorem suffix_append_append {α : Type} {l₁ l₂ : List α} (suffix : l₁ <:+ l₂) (l : List α) :
    l₁ ++ l <:+ l₂ ++ l := by
  obtain ⟨before, rfl⟩ := suffix
  exact ⟨before, (List.append_assoc ..).symm⟩

theorem eventsOf_step_self (s : State ι T) (i : ι) (c : Channel T) (t : Thread T)
    (events : List (FifoEvent T)) : eventsOf i (s.step i c t events).log = eventsOf i s.log ++ events := by
  have own : (events.map (some i, ·)).filter (·.1 = some i) = events.map (some i, ·) :=
    List.filter_eq_self.2 fun entry mem => by
      obtain ⟨event, -, rfl⟩ := List.mem_map.1 mem
      exact decide_eq_true rfl
  rw [State.step, eventsOf, List.filter_append, own, List.map_append, List.map_map]
  exact congrArg _ (List.map_id _)

theorem eventsOf_step_of_ne {j : ι} (ne : j ≠ i) (s : State ι T) (c : Channel T) (t : Thread T)
    (events : List (FifoEvent T)) : eventsOf j (s.step i c t events).log = eventsOf j s.log := by
  have foreign : (events.map (some i, ·)).filter (·.1 = some j) = [] :=
    List.filter_eq_nil_iff.2 fun entry mem => by
      obtain ⟨event, -, rfl⟩ := List.mem_map.1 mem
      simpa using ne.symm
  rw [State.step, eventsOf, List.filter_append, foreign, List.append_nil]
  rfl

structure Linear (capacity : Nat) (s : State ι T) : Prop where
  slot : s.channel.reservedData.length ≤ 1
  bound : s.channel.capacity = capacity
  history : Fifo.Moves capacity ⟨[], false⟩ (s.log.map (·.2)) s.channel.fifo
  answers : ∀ i, Answers (eventsOf i s.log) (s.threads i)

theorem linear_initial (capacity : Nat) : Linear capacity (initial capacity : State ι T) :=
  ⟨Nat.zero_le 1, rfl, .nil _, fun _ => trivial⟩

section
variable (linear : Linear capacity s)
include linear

theorem Linear.step {c : Channel T} (keeps : s.channel.Keeps c) {t : Thread T}
    {events : List (FifoEvent T)} (moves : Fifo.Moves s.channel.capacity s.channel.fifo events c.fifo)
    (answers : Answers (eventsOf i s.log ++ events) t) : Linear capacity (s.step i c t events) := by
  refine ⟨keeps.slot, keeps.capacity.trans linear.bound, ?_, fun j => ?_⟩
  · have added : (s.step i c t events).log.map (·.2) = s.log.map (·.2) ++ events := by
      rw [State.step, List.map_append, List.map_map]
      exact congrArg _ (List.map_id _)
    rw [added]
    exact linear.history.append (linear.bound ▸ moves)
  · rcases eq_or_ne j i with rfl | ne
    · rw [eventsOf_step_self]
      simpa [State.step] using answers
    · rw [eventsOf_step_of_ne ne]
      simpa [State.step, Function.update_of_ne ne] using linear.answers j

theorem Linear.readStep {asked : Nat} {got : List T}
    (reading : s.threads i = .reading asked got) : Linear capacity (s.readStep i asked got) := by
  have spec := Channel.readMany_spec (asked - got.length) linear.slot
  have answers := linear.answers i
  rw [reading] at answers
  obtain ⟨sofar, short⟩ := answers
  rw [State.readStep]
  generalize s.channel.readMany (asked - got.length) = section_ at spec
  obtain ⟨vals, returns, c⟩ := section_
  have total : (got ++ vals).length ≤ asked := by
    have length : vals.length ≤ asked - got.length := spec.length
    rw [List.length_append]
    omega
  refine linear.step spec.toKeeps spec.moves ?_
  cases returns with
  | false =>
    refine ⟨?_, total⟩
    rw [readEvents, if_neg (fun both => absurd both.1 (by decide)), List.append_nil, List.map_append]
    exact suffix_append_append sofar _
  | true =>
    have events : readEvents asked (got ++ vals) true =
        got.map .pop ++ readEvents (asked - got.length) vals true := by
      have missing : (got ++ vals).length < asked ↔ vals.length < asked - got.length := by
        rw [List.length_append]
        omega
      simp only [readEvents, missing, List.map_append, List.append_assoc]
    show readEvents asked (got ++ vals) true <:+ _
    rw [events]
    exact suffix_append_append sofar _

theorem Linear.writeStep (memory : List Bool) {vals : List T} {written : Nat}
    (writing : s.threads i = .writing vals written) : Linear capacity (s.writeStep i memory vals written) := by
  have spec := Channel.writeMany_spec memory (vals.drop written) linear.slot
  have answers := linear.answers i
  rw [writing] at answers
  obtain ⟨sofar, short⟩ := answers
  rw [State.writeStep]
  generalize s.channel.writeMany memory (vals.drop written) = section_ at spec
  obtain ⟨more, returns, c⟩ := section_
  have length : more ≤ (vals.drop written).length := spec.length
  rw [List.length_drop] at length
  refine linear.step spec.toKeeps spec.moves ?_
  have take : (vals.take (written + more)).map FifoEvent.push =
      (vals.take written).map .push ++ ((vals.drop written).take more).map .push := by
    rw [List.take_add, List.map_append]
  cases returns with
  | false =>
    refine ⟨?_, by omega⟩
    rw [writeEvents, if_neg (fun both => absurd both.1 (by decide)), List.append_nil, take]
    exact suffix_append_append sofar _
  | true =>
    have events : writeEvents vals (written + more) true =
        (vals.take written).map .push ++ writeEvents (vals.drop written) more true := by
      have missing : written + more < vals.length ↔ more < (vals.drop written).length := by
        rw [List.length_drop]
        omega
      rw [writeEvents, writeEvents, take, List.append_assoc]
      simp [missing]
    show writeEvents vals (written + more) true <:+ _
    rw [events]
    exact suffix_append_append sofar _

theorem Linear.tryReadStep (i : ι) : Linear capacity (s.tryReadStep i) := by
  obtain ⟨keeps, move⟩ := Channel.tryRead_spec linear.slot
  rw [State.tryReadStep]
  generalize s.channel.tryRead = section_ at keeps move
  obtain ⟨val, c⟩ := section_
  refine linear.step keeps move.single ?_
  cases val with
  | none => exact List.suffix_append _ _
  | some val => exact List.suffix_append _ _

theorem Linear.tryWriteStep (i : ι) (val : T) : Linear capacity (s.tryWriteStep i val true) := by
  have keeps := Channel.tryWrite_keeps true val linear.slot
  have move := Channel.tryWrite_move val linear.slot
  rw [State.tryWriteStep]
  generalize s.channel.tryWrite true val = section_ at keeps move
  obtain ⟨done, c⟩ := section_
  exact linear.step keeps move.single (List.suffix_append _ _)

theorem Linear.setChannel {c : Channel T} (slot : c.reservedData.length ≤ 1)
    (same : c.capacity = s.channel.capacity) (contents : c.contents = s.channel.contents) :
    Linear capacity (s.setChannel c) := by
  refine ⟨slot, same.trans linear.bound, ?_, fun i => ?_⟩
  · rw [State.setChannel, Channel.fifo, contents]
    split
    · rename_i unchanged
      rw [List.append_nil, unchanged]
      exact linear.history
    · rw [List.map_append]
      exact linear.history.append (Fifo.Move.setClosed s.channel.fifo c.closed).single
  · have none_of : eventsOf i (s.setChannel c).log = eventsOf i s.log := by
      rw [State.setChannel, eventsOf, List.filter_append]
      split
      · rw [List.filter_nil, List.append_nil]
        rfl
      · rw [List.filter_cons_of_neg (by simp), List.filter_nil, List.append_nil]
        rfl
    rw [none_of]
    exact linear.answers i

theorem Linear.start (i : ι) {t : Thread T} (answers : ∀ events, Answers events t) :
    Linear capacity (s.step i s.channel t []) :=
  linear.step (Channel.keeps_refl linear.slot) (.nil _) (answers _)

theorem Linear.act {a : Action ι T} (regular : a.Regular)
    (done : act s a = some s') : Linear capacity s' := by
  cases a with
  | read i n =>
    obtain ⟨-, ⟨⟩⟩ := Option.ite_none_right_eq_some.1 done
    exact linear.start i fun events => ⟨List.nil_suffix, Nat.zero_le n⟩
  | write i vals =>
    obtain ⟨-, ⟨⟩⟩ := Option.ite_none_right_eq_some.1 done
    exact linear.start i fun events => ⟨List.nil_suffix, Nat.zero_le _⟩
  | tryRead i =>
    obtain ⟨-, ⟨⟩⟩ := Option.ite_none_right_eq_some.1 done
    exact linear.tryReadStep i
  | tryWrite i val memory =>
    obtain ⟨-, ⟨⟩⟩ := Option.ite_none_right_eq_some.1 done
    cases regular
    exact linear.tryWriteStep i val
  | go i memory =>
    rw [ChannelEntity.act] at done
    split at done
    · rename_i asked got reading
      cases done
      exact linear.readStep reading
    · rename_i vals written writing
      cases done
      exact linear.writeStep memory writing
    · cases done
  | sharedOpen =>
    cases done
    exact linear.setChannel linear.slot rfl rfl
  | open_ =>
    cases done
    exact linear.setChannel linear.slot rfl rfl
  | close =>
    cases done
    refine linear.setChannel ?_ s.channel.close_capacity s.channel.close_contents
    rw [s.channel.close_reservedData]
    exact linear.slot
  | setCapacity capacity => exact regular.elim

end

theorem linear_of_reachable (reachable : ChannelReachable capacity (fun _ a => a.Regular) s) :
    Linear capacity s := by
  refine Reachable.invariant (Linear capacity) (fun s start => ?_) (fun s s' linear step => ?_) reachable
  · rw [start]
    exact linear_initial capacity
  · obtain ⟨a, regular, done⟩ := step
    exact linear.act regular done

theorem readStep_thread (s : State ι T) (i : ι) (asked : Nat) (got : List T) :
    (s.readStep i asked got).threads i = if (s.channel.readMany (asked - got.length)).2.1 = true then
        .returned (.read asked (got ++ (s.channel.readMany (asked - got.length)).1))
      else .reading asked (got ++ (s.channel.readMany (asked - got.length)).1) :=
  Function.update_self ..

theorem writeStep_thread (s : State ι T) (i : ι) (memory : List Bool) (vals : List T) (written : Nat) :
    (s.writeStep i memory vals written).threads i =
      if (s.channel.writeMany memory (vals.drop written)).2.1 = true then
        .returned (.wrote vals (written + (s.channel.writeMany memory (vals.drop written)).1))
      else .writing vals (written + (s.channel.writeMany memory (vals.drop written)).1) :=
  Function.update_self ..

theorem short_read_drained (slot : s.channel.reservedData.length ≤ 1) {memory : List Bool}
    (done : act s (.go i memory) = some s') {asked : Nat} {got : List T}
    (returned : s'.threads i = .returned (.read asked got)) (short : got.length < asked) :
    s'.channel.closed = true ∧ s'.channel.contents = [] := by
  rw [act] at done
  split at done
  · rename_i asked₀ got₀ reading
    cases done
    have spec := Channel.readMany_spec (asked₀ - got₀.length) slot
    rw [readStep_thread] at returned
    split at returned
    · rename_i returns
      cases returned
      rw [List.length_append] at short
      exact spec.complete returns (by omega)
    · cases returned
  · cases done
    rw [writeStep_thread] at returned
    split at returned <;> cases returned
  · cases done

theorem short_write_closed (slot : s.channel.reservedData.length ≤ 1) {memory : List Bool}
    (done : act s (.go i memory) = some s') {vals : List T} {written : Nat}
    (returned : s'.threads i = .returned (.wrote vals written)) (short : written < vals.length) :
    s'.channel.closed = true := by
  rw [act] at done
  split at done
  · cases done
    rw [readStep_thread] at returned
    split at returned <;> cases returned
  · rename_i vals₀ written₀ writing
    cases done
    have spec := Channel.writeMany_spec memory (vals₀.drop written₀) slot
    rw [writeStep_thread] at returned
    split at returned
    · rename_i returns
      cases returned
      refine spec.complete returns ?_
      rw [List.length_drop]
      omega
    · cases returned
  · cases done

def Action.isSharedOpen : Action ι T → Bool
  | .sharedOpen => true
  | _ => false

def Action.isClose : Action ι T → Bool
  | .close => true
  | _ => false

section
variable (slot : s.channel.reservedData.length ≤ 1)
include slot

theorem act_effect {a : Action ι T} (done : act s a = some s') :
    s'.channel.reservedData.length ≤ 1 ∧ s'.channel.closed = (a.effect s.channel).closed ∧
      s'.channel.sharedCount = (a.effect s.channel).sharedCount := by
  rcases act_cases done with effect | ⟨same, transfer⟩
  · rw [effect, a.effect_reservedData]
    exact ⟨slot, rfl, rfl⟩
  · rw [same]
    have keeps := transfer.keeps slot
    exact ⟨keeps.slot, keeps.closed, keeps.sharedCount⟩

theorem opening_run {opening : List (Action ι T)}
    (no_close : ∀ a ∈ opening, a.isClose = false) (run : opening.foldlM act s = some s') :
    s'.channel.reservedData.length ≤ 1 ∧
      s'.channel.sharedCount = s.channel.sharedCount + opening.countP Action.isSharedOpen ∧
      (s.channel.closed = false ∨ 0 < opening.countP Action.isSharedOpen → s'.channel.closed = false) := by
  induction opening generalizing s with
  | nil =>
    cases run
    exact ⟨slot, rfl, fun either => either.resolve_right (Nat.lt_irrefl 0)⟩
  | cons a opening ih =>
    obtain ⟨here, no_close⟩ := List.forall_mem_cons.1 no_close
    rw [List.foldlM_cons, Option.bind_eq_bind, Option.bind_eq_some_iff] at run
    obtain ⟨s₁, done, run⟩ := run
    obtain ⟨slot₁, closed, count⟩ := act_effect slot done
    obtain ⟨slot', count', closed'⟩ := ih slot₁ no_close run
    refine ⟨slot', ?_, fun either => closed' ?_⟩
    · rw [count', count, List.countP_cons]
      cases a with
      | close => cases here
      | sharedOpen =>
        show s.channel.sharedCount + 1 + _ = s.channel.sharedCount + (_ + 1)
        omega
      | _ => rfl
    · rw [closed]
      rw [List.countP_cons] at either
      cases a with
      | close => cases here
      | sharedOpen | open_ => exact .inl rfl
      | _ => exact either

theorem closing_run (isOpen : s.channel.closed = false)
    {closing : List (Action ι T)} (no_open : ∀ a ∈ closing, a.isSharedOpen = false)
    (fewer : closing.countP Action.isClose < s.channel.sharedCount) (run : closing.foldlM act s = some s') :
    s'.channel.reservedData.length ≤ 1 ∧ s'.channel.closed = false ∧
      s'.channel.sharedCount = s.channel.sharedCount - closing.countP Action.isClose := by
  induction closing generalizing s with
  | nil =>
    cases run
    exact ⟨slot, isOpen, rfl⟩
  | cons a closing ih =>
    obtain ⟨here, no_open⟩ := List.forall_mem_cons.1 no_open
    rw [List.foldlM_cons, Option.bind_eq_bind, Option.bind_eq_some_iff] at run
    obtain ⟨s₁, done, run⟩ := run
    obtain ⟨slot₁, closed, count⟩ := act_effect slot done
    rw [List.countP_cons] at fewer ⊢
    have open_or_close : s₁.channel.closed = false ∧
        s₁.channel.sharedCount = s.channel.sharedCount - (if a.isClose = true then 1 else 0) := by
      rw [closed, count]
      cases a with
      | sharedOpen => cases here
      | open_ => exact ⟨rfl, rfl⟩
      | close =>
        have more : s.channel.sharedCount ≠ 0 ∧ s.channel.sharedCount - 1 ≠ 0 := by
          simp only [Action.isClose, if_true] at fewer
          omega
        show s.channel.close.closed = false ∧ s.channel.close.sharedCount = s.channel.sharedCount - 1
        rw [Channel.close, if_pos more]
        exact ⟨isOpen, rfl⟩
      | _ => exact ⟨isOpen, rfl⟩
    obtain ⟨isOpen₁, count₁⟩ := open_or_close
    obtain ⟨slot', isOpen', count'⟩ := ih slot₁ isOpen₁ no_open (by omega) run
    exact ⟨slot', isOpen', by omega⟩

end

def GivesUpWhenClosed (s : State ι T) : Prop :=
  ∀ i memory s', act s (.go i memory) = some s' →
    (∀ asked got, s'.threads i = .returned (.read asked got) → got.length < asked →
      s'.channel.closed = true ∧ s'.channel.contents = []) ∧
    (∀ vals written, s'.threads i = .returned (.wrote vals written) → written < vals.length →
      s'.channel.closed = true)

def ClosedByLastClose (s : State ι T) : Prop :=
  ∀ (opening closing : List (Action ι T)) (s₁ s₂ : State ι T), s.channel.sharedCount = 0 →
    (∀ a ∈ opening, a.isClose = false) → 0 < opening.countP Action.isSharedOpen →
    opening.foldlM act s = some s₁ → (∀ a ∈ closing, a.isSharedOpen = false) →
    closing.foldlM act s₁ = some s₂ →
    (closing.countP Action.isClose < opening.countP Action.isSharedOpen → s₂.channel.closed = false) ∧
    (closing.countP Action.isClose + 1 = opening.countP Action.isSharedOpen →
      ∀ s₃, act s₂ .close = some s₃ → s₃.channel.closed = true)

theorem closedByLastClose (slot : s.channel.reservedData.length ≤ 1) : ClosedByLastClose s := by
  intro opening closing s₁ s₂ none_open no_close some_open run no_open run'
  obtain ⟨slot₁, count, closed⟩ := opening_run slot no_close run
  have isOpen := closed (.inr some_open)
  rw [none_open, Nat.zero_add] at count
  constructor
  · intro fewer
    exact (closing_run slot₁ isOpen no_open (count ▸ fewer) run').2.1
  · intro last s₃ done
    obtain ⟨-, -, left⟩ := closing_run slot₁ isOpen no_open (by omega) run'
    cases done
    show s₂.channel.close.closed = true
    rw [Channel.close, if_neg (by omega)]

/-- In every run with memory for all that is written, the log is a run of a bounded queue, every call has
returned what the log says, what was read is what was written first, and the channel is never more than
full, with at most one value in the slot, the oldest. -/
theorem channel_linearizable (capacity : Nat) (s : State ι T)
    (reachable : ChannelReachable capacity (fun _ a => a.Regular) s) :
    Fifo.Moves capacity ⟨[], false⟩ (s.log.map (·.2)) s.channel.fifo ∧
    (∀ i, Answers (eventsOf i s.log) (s.threads i)) ∧
    Fifo.popped (s.log.map (·.2)) <+: Fifo.pushed (s.log.map (·.2)) ∧
    s.channel.size ≤ capacity ∧
    s.channel.reservedData.length ≤ 1 ∧ s.channel.reservedData <+: s.channel.contents ∧
    GivesUpWhenClosed s ∧ ClosedByLastClose s := by
  have linear := linear_of_reachable reachable
  refine ⟨linear.history, linear.answers, linear.history.popped_isPrefix, ?_, linear.slot,
    List.prefix_append _ _, fun i memory s' done => ?_, closedByLastClose linear.slot⟩
  · rw [Channel.size_eq]
    exact linear.history.length_le (Nat.zero_le _)
  · exact ⟨fun asked got => short_read_drained linear.slot done,
      fun vals written => short_write_closed linear.slot done⟩

def passTwo : List (Action Bool Nat) :=
  [.write false [1, 2], .go false [], .read true 2, .go true [], .go false [], .go true []]

theorem passTwo_regular : ∀ a ∈ passTwo, a.Regular := by simp [passTwo, Action.Regular]

theorem channel_linearizable_two : ∃ s : State Bool Nat, passTwo.foldlM act (initial 1) = some s ∧
    s.threads true = .returned (.read 2 [1, 2]) ∧
    Fifo.popped (s.log.map (·.2)) <+: Fifo.pushed (s.log.map (·.2)) ∧ s.channel.size ≤ 1 := by
  refine ⟨_, rfl, rfl, ?_⟩
  have reachable : ChannelReachable 1 (fun _ a => a.Regular) ((passTwo.foldlM act (initial 1)).getD (initial 1)) :=
    .foldlM (fun a mem s s' done => Step.act a (passTwo_regular a mem) done) (.initial rfl) rfl
  obtain ⟨-, -, order, size, -⟩ := channel_linearizable 1 _ reachable
  exact ⟨order, size⟩

end Prpc.ChannelEntity
