import Prpc.Thread.ChannelEntity.Sections

/-!
After `bad_alloc` writers wait until something is read.
-/

namespace Prpc.ChannelEntity
open Lib

variable {ι T : Type}

namespace Channel
variable {c c' : Channel T}

/-- While the flag is set there is something to read, or nothing can be written anyway. -/
def FlagSound (c : Channel T) : Prop := c.oomFlag = true → c.contents ≠ [] ∨ c.closed = true

theorem Popped.flagSound {val : T} (popped : Popped c val c') : c'.FlagSound := by
  intro flag
  rw [popped.oomFlag, Bool.and_eq_true] at flag
  exact .inr (popped.closed.trans flag.1)

theorem Pushed.flagSound {val : T} (pushed : Pushed c val c') : c'.FlagSound := by
  intro _
  rw [pushed.contents]
  exact .inl (by simp)

section
variable (sound : c.FlagSound) (slot : c.reservedData.length ≤ 1)
include sound slot

theorem FlagSound.readMany (asked : Nat) : (c.readMany asked).2.2.FlagSound := by
  induction asked generalizing c with
  | zero => exact sound
  | succ asked ih =>
    rw [Channel.readMany]
    split
    · by_cases none_left : c.contents = []
      · rw [readUnlocked_none none_left]
        exact sound
      · obtain ⟨val, c', read, popped⟩ := readUnlocked_some slot none_left
        rw [read]
        exact ih popped.flagSound popped.slot
    · exact sound

theorem FlagSound.writeMany (memory : List Bool)
    (vals : List T) : (c.writeMany memory vals).2.2.FlagSound := by
  induction vals generalizing c memory with
  | nil => exact sound
  | cons val vals ih =>
    rw [Channel.writeMany]
    split
    · rcases writeUnlocked_cases slot (memory.headD true) val with
        ⟨c', write, pushed⟩ | ⟨write, -⟩ | ⟨write, -, something, -⟩
      · rw [write]
        exact ih pushed.flagSound pushed.slot memory.tail
      · rw [write]
        exact sound
      · rw [write]
        exact fun _ => .inl something
    · exact sound

theorem FlagSound.tryRead : c.tryRead.2.FlagSound := by
  rw [Channel.tryRead]
  split
  · exact sound
  · rename_i something
    obtain ⟨val, c', read, popped⟩ := readUnlocked_some slot fun nothing => something (empty_iff.2 nothing)
    rw [read]
    exact popped.flagSound

theorem FlagSound.tryWrite (memory : Bool) (val : T) : (c.tryWrite memory val).2.FlagSound := by
  rw [Channel.tryWrite]
  split
  · exact sound
  · rcases writeUnlocked_cases slot memory val with ⟨c', write, pushed⟩ | ⟨write, -⟩ | ⟨write, -⟩
    · rw [write]
      exact pushed.flagSound
    · rw [write]
      exact sound
    · rw [write]
      exact sound

end

theorem Transfer.flagSound (transfer : Transfer c c') (sound : c.FlagSound) (slot : c.reservedData.length ≤ 1) :
    c'.FlagSound := by
  cases transfer with
  | stay => exact sound
  | read asked => exact sound.readMany slot asked
  | write memory vals => exact sound.writeMany slot memory vals
  | tryRead => exact sound.tryRead slot
  | tryWrite memory val => exact sound.tryWrite slot memory val

theorem FlagSound.close (sound : c.FlagSound) : c.close.FlagSound := by
  rw [FlagSound, close_contents, Channel.close]
  split
  · exact sound
  · exact fun _ => .inr rfl

end Channel

def Action.opens : Action ι T → Bool
  | .sharedOpen | .open_ => true
  | _ => false

def Careful (s : State ι T) (a : Action ι T) : Prop :=
  a.opens = true → ¬ (s.channel.closed = true ∧ s.channel.contents = [] ∧ s.channel.oomFlag = true)

variable {a : Action ι T}

theorem Channel.FlagSound.effect {c : Channel T} (sound : c.FlagSound)
    (careful : a.opens = true → ¬ (c.closed = true ∧ c.contents = [] ∧ c.oomFlag = true)) :
    (a.effect c).FlagSound := by
  have opened (opens : a.opens = true) (flag : c.oomFlag = true) : c.contents ≠ [] := by
    intro nothing
    rcases sound flag with something | closed
    · exact something nothing
    · exact careful opens ⟨closed, nothing, flag⟩
  cases a with
  | sharedOpen | open_ => exact fun flag => .inl (opened rfl flag)
  | close => exact sound.close
  | _ => exact sound

structure FlagInv (s : State ι T) : Prop where
  slot : s.channel.reservedData.length ≤ 1
  room : 0 < s.channel.capacity
  sound : s.channel.FlagSound

variable [DecidableEq ι] {s s' : State ι T} {capacity : Nat}

theorem act_capacity_pos (done : act s a = some s') (room : 0 < s.channel.capacity) :
    0 < (a.effect s.channel).capacity := by
  cases a with
  | setCapacity capacity => exact (Option.ite_none_right_eq_some.1 done).1
  | close =>
    show 0 < s.channel.close.capacity
    rw [s.channel.close_capacity]
    exact room
  | _ => exact room

theorem FlagInv.act (inv : FlagInv s) (careful : Careful s a)
    (done : act s a = some s') : FlagInv s' := by
  rcases act_cases done with effect | ⟨-, transfer⟩
  · rw [Careful] at careful
    constructor
    · rw [effect, a.effect_reservedData]
      exact inv.slot
    · rw [effect]
      exact act_capacity_pos done inv.room
    · rw [effect]
      exact inv.sound.effect careful
  · have keeps := transfer.keeps inv.slot
    exact ⟨keeps.slot, keeps.capacity ▸ inv.room, transfer.flagSound inv.sound inv.slot⟩

theorem flagInv_of_reachable (pos : 0 < capacity) (reachable : ChannelReachable capacity Careful s) :
    FlagInv s := by
  refine Reachable.invariant FlagInv (fun s start => ?_) (fun s s' inv step => ?_) reachable
  · rw [start]
    exact ⟨Nat.zero_le 1, pos, nofun⟩
  · obtain ⟨a, careful, done⟩ := step
    exact inv.act careful done

/-- In every run in which the channel is only opened carefully, an open and empty channel has the flag
clear and takes the next value that is written; and where it is not, opening it leaves it open and empty
with the flag set. -/
theorem empty_channel_not_stuck (capacity : Nat) (pos : 0 < capacity) (s : State ι T) :
    (ChannelReachable capacity Careful s → s.channel.closed = false → s.channel.contents = [] →
      s.channel.oomFlag = false ∧
      ∀ memory val, ∃ c, s.channel.writeMany memory [val] = (1, true, c) ∧ c.contents = [val]) ∧
    (∀ a, ¬ Careful s a → ∃ s', act s a = some s' ∧ s'.channel.closed = false ∧
      s'.channel.contents = [] ∧ s'.channel.oomFlag = true) := by
  constructor
  · intro reachable isOpen nothing
    have inv := flagInv_of_reachable pos reachable
    have clear : s.channel.oomFlag = false := by
      by_contra set
      rcases inv.sound (Bool.not_eq_false _ ▸ set) with something | closed
      · exact something nothing
      · rw [isOpen] at closed
        cases closed
    have room : ¬ s.channel.full := by
      rw [Channel.full_iff, nothing]
      exact Nat.not_le.2 inv.room
    refine ⟨clear, fun memory val => ?_⟩
    rw [Channel.writeMany, if_pos (.inl ⟨clear, room⟩)]
    rcases Channel.writeUnlocked_cases inv.slot (memory.headD true) val with
      ⟨c, write, pushed⟩ | ⟨-, closed | full⟩ | ⟨-, -, something, -⟩
    · rw [write]
      exact ⟨c, rfl, by rw [pushed.contents, nothing]; rfl⟩
    · rw [isOpen] at closed
      cases closed
    · exact absurd full room
    · exact absurd nothing something
  · intro a careless
    obtain ⟨opens, -, nothing, flag⟩ : a.opens = true ∧ s.channel.closed = true ∧
        s.channel.contents = [] ∧ s.channel.oomFlag = true := by
      simpa only [Careful, Classical.not_imp, not_not] using careless
    cases a with
    | sharedOpen => exact ⟨_, rfl, rfl, nothing, flag⟩
    | open_ => exact ⟨_, rfl, rfl, nothing, flag⟩
    | _ => cases opens

def recovers : List (Action Bool Nat) :=
  [.write false [1, 2], .go false [true, false], .read true 1, .go true []]

def reopens : List (Action Bool Nat) :=
  [.write false [1, 2], .go false [true, false], .close, .go false [], .read true 1, .go true [], .open_,
    .write false [3], .go false []]

theorem recovers_careful : ∀ a ∈ recovers, ∀ s, Careful s a := by simp [recovers, Careful, Action.opens]

theorem empty_channel_not_stuck_read : ∃ s : State Bool Nat, recovers.foldlM act (initial 2) = some s ∧
    s.channel.closed = false ∧ s.channel.contents = [] ∧ s.channel.oomFlag = false := by
  refine ⟨_, rfl, rfl, rfl, ?_⟩
  have reachable : ChannelReachable 2 Careful ((recovers.foldlM act (initial 2)).getD (initial 2)) :=
    .foldlM (fun a mem s s' done => Step.act a (recovers_careful a mem s) done) (.initial rfl) rfl
  exact ((empty_channel_not_stuck 2 (by decide) _).1 reachable rfl rfl).1

theorem reopened_channel_stuck : ∃ s : State Bool Nat, reopens.foldlM act (initial 2) = some s ∧
    ChannelReachable 2 (fun _ _ => True) s ∧ s.channel.closed = false ∧ s.channel.contents = [] ∧
    s.channel.oomFlag = true ∧ s.threads false = .writing [3] 0 := by
  refine ⟨_, rfl, ?_, rfl, rfl, rfl, rfl⟩
  have reachable : ChannelReachable 2 (fun _ _ => True) ((reopens.foldlM act (initial 2)).getD (initial 2)) :=
    .foldlM (fun a (_ : a ∈ reopens) s s' done => Step.act a trivial done) (.initial rfl) rfl
  exact reachable

end Prpc.ChannelEntity
