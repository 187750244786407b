import Mathlib.Algebra.GroupWithZero.Nat
import Mathlib.Data.Finset.Card
import Prpc.Lib.LinkedNodes
import Prpc.Lib.Transition

/-!
`BlockAllocator` hands out entries of blocks that it gets from `pico_malloc`. An entry is known by its
block and its index. The link of an entry is in the entry's own storage, so that for an entry that was
handed out it is whatever its owner has stored there.
-/

namespace Prpc.BlockAllocator
open Lib
open Function (update update_self update_of_ne)

abbrev Entry := Nat × Nat

structure Sizes where
  block : Nat
  entry : Nat
  entry_pos : 0 < entry

structure State where
  elmNum : Nat
  freeHead : Option Entry
  next : Entry → Option Entry
  /-- how many entries each block has -/
  blocks : List Nat
  live : Finset Entry

def initial : State := ⟨0, none, fun _ => none, [], ∅⟩

def mallocSize (sizes : Sizes) (n : Nat) : Nat := (sizes.block + sizes.entry * n) % 2 ^ 64

/-- The loop of `allocate_new_block`. -/
def link (b n : Nat) (next : Entry → Option Entry) : Entry → Option Entry :=
  (List.range' 1 (n - 1)).foldl (fun next i => update next (b, i) (some (b, i - 1))) next

namespace State

/-- It is `none` where entries are written that lie behind the block. -/
def allocateNewBlock (sizes : Sizes) (s : State) (n : Nat) : Option State :=
  if mallocSize sizes n < sizes.block + sizes.entry * n then none
  else some { s with
    next := link s.blocks.length n (update s.next (s.blocks.length, 0) s.freeHead)
    blocks := s.blocks ++ [n]
    freeHead := some (s.blocks.length, n - 1) }

def refill (sizes : Sizes) (s : State) (n : Nat) : Option State :=
  if s.freeHead = none then s.allocateNewBlock sizes n else some s

def allocate (sizes : Sizes) (s : State) (n : Nat) : Option (Entry × State) := do
  let s ← s.refill sizes n
  let ret ← s.freeHead
  return (ret, { s with freeHead := s.next ret, elmNum := s.elmNum + 1, live := insert ret s.live })

def deallocate (s : State) (e : Entry) : Option State :=
  if 0 < s.elmNum then
    some { s with
      next := update s.next e s.freeHead
      freeHead := some e
      elmNum := s.elmNum - 1
      live := s.live.erase e }
  else none

end State

/-- The calls with the block size at the time, and what the owner of an entry does to it. -/
inductive Step (sizes : Sizes) : State → State → Prop
  | allocate {s s' : State} {n : Nat} {e : Entry} (positive : 1 ≤ n)
      (fits : sizes.block + sizes.entry * n < 2 ^ 64) (done : s.allocate sizes n = some (e, s')) : Step sizes s s'
  | deallocate {s s' : State} {e : Entry} (live : e ∈ s.live) (done : s.deallocate e = some s') : Step sizes s s'
  | store {s : State} {e : Entry} (live : e ∈ s.live) (word : Option Entry) :
      Step sizes s { s with next := update s.next e word }

abbrev AllocatorReachable (sizes : Sizes) : State → Prop := Reachable (· = initial) (Step sizes)

def entries (blocks : List Nat) (e : Entry) : Prop := ∃ n, blocks[e.1]? = some n ∧ e.2 < n

structure Inv (s : State) (free : List Entry) : Prop where
  chain : Chain s.next free
  head : free.head? = s.freeHead
  nodup : free.Nodup
  mem : ∀ e, e ∈ free ↔ entries s.blocks e ∧ e ∉ s.live
  live : ∀ e ∈ s.live, entries s.blocks e
  count : s.elmNum = s.live.card

theorem entries_append {blocks : List Nat} {n : Nat} {e : Entry} :
    entries (blocks ++ [n]) e ↔ entries blocks e ∨ e.1 = blocks.length ∧ e.2 < n := by
  rw [entries, entries]
  rcases lt_trichotomy e.1 blocks.length with lt | eq | gt
  · rw [List.getElem?_append_left lt]
    simp [Nat.ne_of_lt lt]
  · simp [eq]
  · have behind : (blocks ++ [n]).length ≤ e.1 := by
      rw [List.length_append]
      exact gt
    simp [Nat.ne_of_gt gt, List.getElem?_eq_none (Nat.le_of_lt gt), List.getElem?_eq_none behind]

theorem link_succ (b n : Nat) (next : Entry → Option Entry) (positive : 1 ≤ n) :
    link b (n + 1) next = update (link b n next) (b, n) (some (b, n - 1)) := by
  obtain ⟨m, rfl⟩ := Nat.exists_eq_add_of_le' positive
  rw [link, Nat.add_sub_cancel, List.range'_1_concat, List.foldl_append, Nat.add_comm 1 m]
  rfl

/-- The entries of a block from the last one on. -/
def downFrom (b n : Nat) : List Entry := (List.range n).reverse.map fun i => (b, i)

theorem downFrom_succ (b n : Nat) : downFrom b (n + 1) = (b, n) :: downFrom b n := by
  simp [downFrom, List.range_succ]

theorem mem_downFrom {b n : Nat} {e : Entry} : e ∈ downFrom b n ↔ e.1 = b ∧ e.2 < n := by
  simp only [downFrom, List.mem_map, List.mem_reverse, List.mem_range]
  constructor
  · rintro ⟨i, lt, rfl⟩
    exact ⟨rfl, lt⟩
  · rintro ⟨rfl, lt⟩
    exact ⟨e.2, lt, rfl⟩

theorem nodup_downFrom (b n : Nat) : (downFrom b n).Nodup :=
  (List.nodup_reverse.2 List.nodup_range).map fun _ _ eq => congrArg Prod.snd eq

theorem chain_link {b n : Nat} {next : Entry → Option Entry} (positive : 1 ≤ n) (last : next (b, 0) = none) :
    Chain (link b n next) (downFrom b n) := by
  induction n with
  | zero => cases positive
  | succ n ih =>
    rw [downFrom_succ]
    rcases Nat.eq_zero_or_pos n with rfl | pos
    · exact last
    · obtain ⟨m, rfl⟩ := Nat.exists_eq_add_of_le' pos
      have apart : ∀ e ∈ downFrom b (m + 1), update (link b (m + 1) next) (b, m + 1) (some (b, m)) e =
          link b (m + 1) next e := by
        intro e mem
        refine update_of_ne ?_ ..
        rintro rfl
        exact Nat.lt_irrefl _ (mem_downFrom.1 mem).2
      rw [link_succ b (m + 1) next pos, downFrom_succ]
      refine ⟨update_self .., ?_⟩
      rw [← downFrom_succ]
      exact (ih pos).congr apart

variable {sizes : Sizes} {s s' : State} {free : List Entry} {n : Nat} {e : Entry}

section
variable (inv : Inv s free)
include inv

theorem Inv.allocateNewBlock (empty : s.freeHead = none) (positive : 1 ≤ n)
    (fits : sizes.block + sizes.entry * n < 2 ^ 64) : ∃ s' free', s.allocateNewBlock sizes n = some s' ∧
      s'.live = s.live ∧ s'.freeHead ≠ none ∧ Inv s' free' := by
  have none_ : free = [] := List.head?_eq_none_iff.1 (inv.head.trans empty)
  have old : ∀ e, entries s.blocks e → e ∈ s.live := by
    intro e there
    by_contra dead
    have := (inv.mem e).2 ⟨there, dead⟩
    simp [none_] at this
  have fresh : ∀ e ∈ s.live, e.1 < s.blocks.length := by
    intro e mem
    obtain ⟨n, at_, -⟩ := inv.live e mem
    exact (List.getElem?_eq_some_iff.1 at_).1
  have enough : ¬mallocSize sizes n < sizes.block + sizes.entry * n := by
    rw [mallocSize, Nat.mod_eq_of_lt fits]
    exact Nat.lt_irrefl _
  refine ⟨_, downFrom s.blocks.length n, if_neg enough, rfl, nofun, ?_, ?_, nodup_downFrom .., ?_, ?_, inv.count⟩
  · exact chain_link positive ((update_self ..).trans empty)
  · obtain ⟨m, rfl⟩ := Nat.exists_eq_add_of_le' positive
    rw [downFrom_succ]
    rfl
  · intro e
    rw [mem_downFrom, entries_append]
    constructor
    · rintro ⟨same, lt⟩
      exact ⟨.inr ⟨same, lt⟩, fun mem => Nat.ne_of_lt (fresh e mem) same⟩
    · rintro ⟨there | new, dead⟩
      · exact absurd (old e there) dead
      · exact new
  · intro e mem
    exact entries_append.2 (.inl (inv.live e mem))

theorem Inv.take (head : s.freeHead = some e) :
    e ∉ s.live ∧ Inv { s with freeHead := s.next e, elmNum := s.elmNum + 1, live := insert e s.live } free.tail := by
  obtain ⟨rest, rfl⟩ : ∃ rest, free = e :: rest := List.head?_eq_some_iff.1 (inv.head.trans head)
  obtain ⟨there, dead⟩ := (inv.mem e).1 (List.mem_cons_self ..)
  obtain ⟨notMem, nodup⟩ := List.nodup_cons.1 inv.nodup
  refine ⟨dead, inv.chain.tail, inv.chain.next_eq.symm, nodup, fun e' => ?_, fun e' mem => ?_, ?_⟩
  · have mem := inv.mem e'
    rw [List.mem_cons] at mem
    rw [Finset.mem_insert, not_or, List.tail_cons]
    constructor
    · intro later
      obtain ⟨there', dead'⟩ := mem.1 (.inr later)
      exact ⟨there', ne_of_mem_of_not_mem later notMem, dead'⟩
    · rintro ⟨there', ne, dead'⟩
      exact (mem.2 ⟨there', dead'⟩).resolve_left ne
  · rcases Finset.mem_insert.1 mem with rfl | mem
    · exact there
    · exact inv.live e' mem
  · rw [Finset.card_insert_of_notMem dead, inv.count]

theorem Inv.allocate (positive : 1 ≤ n) (fits : sizes.block + sizes.entry * n < 2 ^ 64) :
    ∃ e s' free', s.allocate sizes n = some (e, s') ∧ e ∉ s.live ∧ Inv s' free' := by
  have taken {s₁ : State} {free₁ : List Entry} (inv₁ : Inv s₁ free₁) (live : s₁.live = s.live)
      (more : s₁.freeHead ≠ none) (got : s.refill sizes n = some s₁) :
      ∃ e s' free', s.allocate sizes n = some (e, s') ∧ e ∉ s.live ∧ Inv s' free' := by
    obtain ⟨e, head⟩ := Option.ne_none_iff_exists'.1 more
    obtain ⟨dead, after⟩ := inv₁.take head
    refine ⟨e, _, _, ?_, live ▸ dead, after⟩
    simp [State.allocate, got, head]
  by_cases empty : s.freeHead = none
  · obtain ⟨s₁, free₁, got, live, more, inv₁⟩ := inv.allocateNewBlock empty positive fits
    exact taken inv₁ live more (by rw [State.refill, if_pos empty, got])
  · exact taken inv rfl empty (if_neg empty)

theorem Inv.deallocate (live : e ∈ s.live) : ∃ s', s.deallocate e = some s' ∧ Inv s' (e :: free) := by
  have dead : e ∉ free := fun mem => ((inv.mem e).1 mem).2 live
  have some_ : 0 < s.elmNum := inv.count ▸ Finset.card_pos.2 ⟨e, live⟩
  refine ⟨_, if_pos some_, ?_, rfl, List.nodup_cons.2 ⟨dead, inv.nodup⟩, fun e' => ?_, fun e' mem => ?_, ?_⟩
  · have kept := inv.chain.congr fun e' mem =>
      update_of_ne (ne_of_mem_of_not_mem mem dead) s.freeHead s.next
    have first : update s.next e s.freeHead e = free.head? := (update_self ..).trans inv.head.symm
    cases free with
    | nil => exact first
    | cons e' free => exact ⟨first, kept⟩
  · rw [List.mem_cons, inv.mem, Finset.mem_erase, not_and_or, not_not]
    constructor
    · rintro (rfl | ⟨there, notLive⟩)
      · exact ⟨inv.live _ live, .inl rfl⟩
      · exact ⟨there, .inr notLive⟩
    · rintro ⟨there, rfl | notLive⟩
      · exact .inl rfl
      · exact .inr ⟨there, notLive⟩
  · exact inv.live e' (Finset.mem_of_mem_erase mem)
  · rw [Finset.card_erase_of_mem live, inv.count]

theorem Inv.store (live : e ∈ s.live) (word : Option Entry) :
    Inv { s with next := update s.next e word } free :=
  { inv with
    chain := inv.chain.congr fun e' mem => update_of_ne (by
      rintro rfl
      exact ((inv.mem e').1 mem).2 live) .. }

end

theorem inv_of_reachable (reachable : AllocatorReachable sizes s) : ∃ free, Inv s free := by
  refine Reachable.invariant (fun s => ∃ free, Inv s free) ?_ ?_ reachable
  · rintro s rfl
    exact ⟨[], trivial, rfl, .nil, by simp [initial, entries], by simp [initial], rfl⟩
  · rintro s t ⟨free, inv⟩ step
    cases step with
    | allocate positive fits done =>
      obtain ⟨e, s', free', got, -, after⟩ := inv.allocate positive fits
      cases done.symm.trans got
      exact ⟨free', after⟩
    | deallocate live done =>
      obtain ⟨s', got, after⟩ := inv.deallocate live
      cases done.symm.trans got
      exact ⟨_, after⟩
    | store live word => exact ⟨free, inv.store live word⟩

theorem blockAllocator_distinct (reachable : AllocatorReachable sizes s) :
    (∃ free, Chain s.next free ∧ free.head? = s.freeHead ∧ free.Nodup ∧
      ∀ e, e ∈ free ↔ entries s.blocks e ∧ e ∉ s.live) ∧
    (∀ e ∈ s.live, entries s.blocks e) ∧ s.elmNum = s.live.card ∧
    (∀ n, 1 ≤ n → sizes.block + sizes.entry * n < 2 ^ 64 →
      ∃ e s', s.allocate sizes n = some (e, s') ∧ e ∉ s.live) ∧
    ∀ e ∈ s.live, ∃ s', s.deallocate e = some s' := by
  obtain ⟨free, inv⟩ := inv_of_reachable reachable
  refine ⟨⟨free, inv.chain, inv.head, inv.nodup, inv.mem⟩, inv.live, inv.count, fun n positive fits => ?_,
    fun e live => ?_⟩
  · obtain ⟨e, s', -, got, dead, -⟩ := inv.allocate positive fits
    exact ⟨e, s', got, dead⟩
  · obtain ⟨s', got, -⟩ := inv.deallocate live
    exact ⟨s', got⟩

theorem blockAllocator_distinct_reused : ∃ s, AllocatorReachable ⟨8, 16, by decide⟩ s ∧
    s.freeHead = some (0, 1) ∧ s.elmNum = s.live.card := by
  have first : AllocatorReachable ⟨8, 16, by decide⟩ _ :=
    .next (.initial rfl) (.allocate (n := 2) (e := (0, 1)) (by decide) (by decide) rfl)
  have second : AllocatorReachable ⟨8, 16, by decide⟩ _ :=
    first.next (.deallocate (e := (0, 1)) (by decide) rfl)
  exact ⟨_, second, rfl, (blockAllocator_distinct second).2.2.1⟩

/-- The size of a block of `2 ^ 61` entries of eight bytes wraps around. -/
theorem block_size_wraps : initial.allocate ⟨8, 8, by decide⟩ (2 ^ 61) = none := by decide

end Prpc.BlockAllocator
