import Prpc.Thread.ChannelEntity.Model

namespace Prpc.ChannelEntity
open Lib

variable {ι T : Type}

namespace Channel
variable {c c' c'' : Channel T}

def contents (c : Channel T) : List T := c.reservedData ++ c.data

def fifo (c : Channel T) : Fifo T := ⟨c.contents, c.closed⟩

theorem size_eq (c : Channel T) : c.size = c.contents.length := by
  rw [size, contents, List.length_append, Nat.add_comm]

theorem empty_iff : c.empty ↔ c.contents = [] := by
  rw [empty, contents, List.append_eq_nil_iff, and_comm]

theorem full_iff : c.full ↔ c.capacity ≤ c.contents.length := by rw [full, size_eq, ge_iff_le]

structure Keeps (c c' : Channel T) : Prop where
  capacity : c'.capacity = c.capacity
  closed : c'.closed = c.closed
  sharedCount : c'.sharedCount = c.sharedCount
  slot : c'.reservedData.length ≤ 1

theorem Keeps.trans (first : Keeps c c') (second : Keeps c' c'') : Keeps c c'' :=
  ⟨second.capacity.trans first.capacity, second.closed.trans first.closed,
    second.sharedCount.trans first.sharedCount, second.slot⟩

theorem keeps_refl (slot : c.reservedData.length ≤ 1) : Keeps c c := ⟨rfl, rfl, rfl, slot⟩

theorem wasRead_contents (c : Channel T) : c.wasRead.contents = c.contents := by
  rw [wasRead]
  split <;> rfl

theorem wasRead_keeps (slot : c.reservedData.length ≤ 1) : Keeps c c.wasRead := by
  rw [wasRead]
  split
  · exact keeps_refl slot
  · exact ⟨rfl, rfl, rfl, slot⟩

theorem wasRead_oomFlag (c : Channel T) : c.wasRead.oomFlag = (c.closed && c.oomFlag) := by
  rw [wasRead]
  split
  · rename_i closed
    rw [closed, Bool.true_and]
  · rename_i isOpen
    rw [Bool.eq_false_iff.2 isOpen]
    rfl

structure Popped (c : Channel T) (val : T) (c' : Channel T) : Prop extends Keeps c c' where
  contents : c.contents = val :: c'.contents
  oomFlag : c'.oomFlag = (c.closed && c.oomFlag)

theorem readUnlocked_none (none_left : c.contents = []) : c.readUnlocked = (none, c) := by
  obtain ⟨slot, deque⟩ := List.append_eq_nil_iff.1 none_left
  rw [readUnlocked, slot, deque]

theorem readUnlocked_some (slot : c.reservedData.length ≤ 1) (some_left : c.contents ≠ []) :
    ∃ val c', c.readUnlocked = (some val, c') ∧ Popped c val c' := by
  obtain ⟨data, reserved, sharedCount, oomFlag, closed, capacity⟩ := c
  cases reserved with
  | cons val more =>
    -- There is nothing else in the slot, so what is popped at its back is what was read.
    have alone : more = [] := List.length_eq_zero_iff.1 (Nat.le_zero.1 (Nat.le_of_succ_le_succ slot))
    subst alone
    refine ⟨val, _, rfl, { toKeeps := ?_, contents := ?_, oomFlag := wasRead_oomFlag _ }⟩
    · have keeps := wasRead_keeps (c := ⟨data, [], sharedCount, oomFlag, closed, capacity⟩) (Nat.zero_le 1)
      exact ⟨keeps.capacity, keeps.closed, keeps.sharedCount, keeps.slot⟩
    · rw [wasRead_contents]
      rfl
  | nil =>
    cases data with
    | nil => exact absurd rfl some_left
    | cons val data =>
      refine ⟨val, _, rfl, { toKeeps := ?_, contents := ?_, oomFlag := wasRead_oomFlag _ }⟩
      · have keeps := wasRead_keeps (c := ⟨data, [], sharedCount, oomFlag, closed, capacity⟩) slot
        exact ⟨keeps.capacity, keeps.closed, keeps.sharedCount, keeps.slot⟩
      · rw [wasRead_contents]
        rfl

structure Reads (c : Channel T) (asked : Nat) (vals : List T) (returns : Bool) (c' : Channel T) : Prop
    extends Keeps c c' where
  moves : Fifo.Moves c.capacity c.fifo (readEvents asked vals returns) c'.fifo
  length : vals.length ≤ asked
  complete : returns = true → vals.length < asked → c'.closed = true ∧ c'.contents = []
  waits : returns = false → vals.length < asked

theorem readMany_spec (asked : Nat) (slot : c.reservedData.length ≤ 1) :
    Reads c asked (c.readMany asked).1 (c.readMany asked).2.1 (c.readMany asked).2.2 := by
  induction asked generalizing c with
  | zero => exact ⟨keeps_refl slot, .nil _, Nat.le_refl _, fun _ => nofun, nofun⟩
  | succ asked ih =>
    rw [readMany]
    split
    · rename_i ready
      by_cases none_left : c.contents = []
      · have closed : c.closed = true := ready.resolve_left fun some_left => some_left (empty_iff.2 none_left)
        rw [readUnlocked_none none_left]
        refine ⟨keeps_refl slot, ?_, Nat.zero_le _, fun _ _ => ⟨closed, none_left⟩, nofun⟩
        exact (Fifo.Move.drained closed none_left).single
      · obtain ⟨val, c', read, popped⟩ := readUnlocked_some slot none_left
        have rest := ih popped.slot
        rw [read]
        refine ⟨popped.toKeeps.trans rest.toKeeps, ?_, Nat.succ_le_succ rest.length, fun returns short => ?_,
          fun waits => Nat.succ_lt_succ (rest.waits waits)⟩
        · have events : ∀ vals returns, readEvents (asked + 1) (val :: vals) returns =
              .pop val :: readEvents asked vals returns := by
            intro vals returns
            simp only [readEvents, List.length_cons, Nat.add_lt_add_iff_right]
            rfl
          rw [events]
          refine .cons ?_ (popped.capacity ▸ rest.moves)
          rw [fifo, fifo, popped.contents, popped.closed]
          exact .pop val _ _
        · exact rest.complete returns (Nat.lt_of_succ_lt_succ short)
    · exact ⟨keeps_refl slot, .nil _, Nat.zero_le _, nofun, fun _ => Nat.succ_pos _⟩

structure Pushed (c : Channel T) (val : T) (c' : Channel T) : Prop extends Keeps c c' where
  isOpen : c.closed = false
  room : c.contents.length < c.capacity
  contents : c'.contents = c.contents ++ [val]
  oomFlag : c'.oomFlag = c.oomFlag

theorem writeUnlocked_cases (slot : c.reservedData.length ≤ 1) (memory : Bool) (val : T) :
    (∃ c', c.writeUnlocked memory val = some (true, c') ∧ Pushed c val c') ∨
    (c.writeUnlocked memory val = some (false, c) ∧ (c.closed = true ∨ c.full)) ∨
    (c.writeUnlocked memory val = none ∧ memory = false ∧ c.contents ≠ [] ∧ c.closed = false ∧ ¬ c.full) := by
  rw [writeUnlocked]
  split
  · rename_i refused
    exact .inr (.inl ⟨rfl, refused⟩)
  · rename_i accepted
    obtain ⟨isOpen, room⟩ := not_or.1 accepted
    have isOpen := Bool.eq_false_iff.2 isOpen
    have short : c.contents.length < c.capacity := Nat.lt_of_not_le fun le => room (full_iff.2 le)
    split
    · rename_i nothing
      obtain ⟨deque, reserved⟩ := nothing
      refine .inl ⟨_, rfl, ⟨rfl, rfl, rfl, ?_⟩, isOpen, short, ?_, rfl⟩
      · rw [reserved]
        exact Nat.le_refl 1
      · rw [contents, contents, reserved, deque]
        rfl
    · rename_i something
      split
      · exact .inl ⟨_, rfl, ⟨rfl, rfl, rfl, slot⟩, isOpen, short, (List.append_assoc ..).symm, rfl⟩
      · rename_i memory_out
        exact .inr (.inr ⟨rfl, Bool.eq_false_iff.2 memory_out, fun nothing => something (empty_iff.2 nothing),
          isOpen, room⟩)

theorem Pushed.move {val : T} (pushed : Pushed c val c') : Fifo.Move c.capacity c.fifo (.push val) c'.fifo := by
  have after : c'.fifo = { c.fifo with items := c.fifo.items ++ [val] } := by
    rw [fifo, pushed.contents, pushed.closed]
    rfl
  rw [after]
  exact .push val pushed.isOpen pushed.room

structure Writes (c : Channel T) (vals : List T) (written : Nat) (returns : Bool) (c' : Channel T) : Prop
    extends Keeps c c' where
  moves : Fifo.Moves c.capacity c.fifo (writeEvents vals written returns) c'.fifo
  length : written ≤ vals.length
  complete : returns = true → written < vals.length → c'.closed = true
  waits : returns = false → written < vals.length

theorem writeMany_spec (memory : List Bool) (vals : List T) (slot : c.reservedData.length ≤ 1) :
    Writes c vals (c.writeMany memory vals).1 (c.writeMany memory vals).2.1 (c.writeMany memory vals).2.2 := by
  induction vals generalizing c memory with
  | nil => exact ⟨keeps_refl slot, .nil _, Nat.le_refl _, fun _ => nofun, nofun⟩
  | cons val vals ih =>
    rw [writeMany]
    split
    · rename_i ready
      rcases writeUnlocked_cases slot (memory.headD true) val with
        ⟨c', write, pushed⟩ | ⟨write, refused⟩ | ⟨write, -, -⟩
      · have rest := ih memory.tail pushed.slot
        rw [write]
        refine ⟨pushed.toKeeps.trans rest.toKeeps, ?_, Nat.succ_le_succ rest.length, fun returns short => ?_,
          fun waits => Nat.succ_lt_succ (rest.waits waits)⟩
        · have events : ∀ written returns, writeEvents (val :: vals) (written + 1) returns =
              .push val :: writeEvents vals written returns := by
            intro written returns
            simp only [writeEvents, List.length_cons, Nat.add_lt_add_iff_right]
            rfl
          rw [events]
          exact .cons pushed.move (pushed.capacity ▸ rest.moves)
        · exact rest.complete returns (Nat.lt_of_succ_lt_succ short)
      · -- Not full, or the wait would not have ended.
        have closed : c.closed = true := by
          rcases ready with ⟨-, room⟩ | closed
          · exact refused.resolve_right room
          · exact closed
        rw [write]
        exact ⟨keeps_refl slot, (Fifo.Move.reject closed).single, Nat.zero_le _, fun _ _ => closed, nofun⟩
      · rw [write]
        exact ⟨⟨rfl, rfl, rfl, slot⟩, .nil _, Nat.zero_le _, nofun, fun _ => Nat.succ_pos _⟩
    · exact ⟨keeps_refl slot, .nil _, Nat.zero_le _, nofun, fun _ => Nat.succ_pos _⟩

theorem tryRead_spec (slot : c.reservedData.length ≤ 1) : Keeps c c.tryRead.2 ∧
    Fifo.Move c.capacity c.fifo (match c.tryRead.1 with | some val => .pop val | none => .tryEmpty)
      c.tryRead.2.fifo := by
  rw [tryRead]
  split
  · rename_i nothing
    exact ⟨keeps_refl slot, .tryEmpty (empty_iff.1 nothing)⟩
  · rename_i something
    obtain ⟨val, c', read, popped⟩ := readUnlocked_some slot fun nothing => something (empty_iff.2 nothing)
    rw [read]
    refine ⟨popped.toKeeps, ?_⟩
    rw [fifo, fifo, popped.contents, popped.closed]
    exact .pop val _ _

theorem tryWrite_keeps (memory : Bool) (val : T) (slot : c.reservedData.length ≤ 1) :
    Keeps c (c.tryWrite memory val).2 := by
  rw [tryWrite]
  split
  · exact keeps_refl slot
  · rcases writeUnlocked_cases slot memory val with ⟨c', write, pushed⟩ | ⟨write, -⟩ | ⟨write, -⟩
    · rw [write]
      exact pushed.toKeeps
    · rw [write]
      exact keeps_refl slot
    · rw [write]
      exact keeps_refl slot

theorem tryWrite_move (val : T) (slot : c.reservedData.length ≤ 1) :
    Fifo.Move c.capacity c.fifo (if (c.tryWrite true val).1 then .push val else .tryReject)
      (c.tryWrite true val).2.fifo := by
  rw [tryWrite]
  split
  · rename_i refused
    refine .tryReject ?_
    rw [full_iff] at refused
    exact refused
  · rename_i accepted
    rcases writeUnlocked_cases slot true val with ⟨c', write, pushed⟩ | ⟨write, refused⟩ | ⟨-, memory, -⟩
    · rw [write]
      exact pushed.move
    · exact absurd refused accepted
    · cases memory

inductive Transfer (c : Channel T) : Channel T → Prop
  | stay : Transfer c c
  | read (asked : Nat) : Transfer c (c.readMany asked).2.2
  | write (memory : List Bool) (vals : List T) : Transfer c (c.writeMany memory vals).2.2
  | tryRead : Transfer c c.tryRead.2
  | tryWrite (memory : Bool) (val : T) : Transfer c (c.tryWrite memory val).2

theorem Transfer.keeps (transfer : Transfer c c') (slot : c.reservedData.length ≤ 1) : Keeps c c' := by
  cases transfer with
  | stay => exact keeps_refl slot
  | read asked => exact (readMany_spec asked slot).toKeeps
  | write memory vals => exact (writeMany_spec memory vals slot).toKeeps
  | tryRead => exact (tryRead_spec slot).1
  | tryWrite memory val => exact tryWrite_keeps memory val slot

theorem close_reservedData (c : Channel T) : c.close.reservedData = c.reservedData := by
  rw [close]
  split <;> rfl

theorem close_contents (c : Channel T) : c.close.contents = c.contents := by
  rw [close]
  split <;> rfl

theorem close_capacity (c : Channel T) : c.close.capacity = c.capacity := by
  rw [close]
  split <;> rfl

end Channel

def Action.effect : Action ι T → Channel T → Channel T
  | .sharedOpen => Channel.sharedOpen
  | .open_ => Channel.open_
  | .close => Channel.close
  | .setCapacity capacity => (·.setCapacity capacity)
  | _ => id

theorem act_cases [DecidableEq ι] {s s' : State ι T} {a : Action ι T} (done : act s a = some s') :
    s'.channel = a.effect s.channel ∨ a.effect s.channel = s.channel ∧ s.channel.Transfer s'.channel := by
  cases a with
  | read | write =>
    obtain ⟨-, ⟨⟩⟩ := Option.ite_none_right_eq_some.1 done
    exact .inr ⟨rfl, .stay⟩
  | tryRead i =>
    obtain ⟨-, ⟨⟩⟩ := Option.ite_none_right_eq_some.1 done
    exact .inr ⟨rfl, .tryRead⟩
  | tryWrite i val memory =>
    obtain ⟨-, ⟨⟩⟩ := Option.ite_none_right_eq_some.1 done
    exact .inr ⟨rfl, .tryWrite memory val⟩
  | go i memory =>
    rw [act] at done
    split at done
    · rename_i asked got _
      cases done
      exact .inr ⟨rfl, .read (asked - got.length)⟩
    · rename_i vals written _
      cases done
      exact .inr ⟨rfl, .write memory (vals.drop written)⟩
    · cases done
  | sharedOpen | open_ | close =>
    cases done
    exact .inl rfl
  | setCapacity capacity =>
    obtain ⟨-, ⟨⟩⟩ := Option.ite_none_right_eq_some.1 done
    exact .inl rfl

theorem Action.effect_reservedData (a : Action ι T) (c : Channel T) :
    (a.effect c).reservedData = c.reservedData := by
  cases a with
  | close => exact c.close_reservedData
  | _ => rfl

end Prpc.ChannelEntity
