import Prpc.Misc.HashTable.Refinement

/-!
Programs that also call `reserve`.
-/

namespace Prpc.HashTable
open Lib

variable {K V F : Type} [DecidableEq K] {P : Params K V F} {t t' : Table K V F}
  {chain : Nat → Chain K V} {m : Finmap fun _ : K => V} {s s' : Tables K V F} {r : Maps K V}

theorem Refines.reserve (refines : Refines P t m chain) {size : Nat} (can : t.CanReserve size) :
    ∃ t', t.reserve size = some t' ∧ Refines P t' m chain := by
  obtain ⟨newBegin, capacity, news, olds, reserved, -, view⟩ := refines.toView.reserve can
  exact ⟨_, reserved, ⟨view, refines.placed⟩, refines.lists, refines.size⟩

inductive ReserveStep (P : Params K V F) (allowed : Table K V F → Nat → Prop) :
    Tables K V F × Maps K V → Tables K V F × Maps K V → Prop
  | op {x y : Tables K V F × Maps K V} (step : TableStep P NoSelfCopy x y) : ReserveStep P allowed x y
  | reserve {s : Tables K V F} {r : Maps K V} {t t' : Table K V F} (i size : Nat) (built : s i = some t)
      (guard : allowed t size) (reserved : t.reserve size = some t') :
      ReserveStep P allowed (s, r) (Function.update s i (some t'), r)

abbrev ReserveReachable (P : Params K V F) (allowed : Table K V F → Nat → Prop) :
    Tables K V F × Maps K V → Prop :=
  Reachable (· = (fun _ => none, fun _ => none)) (ReserveStep P allowed)

theorem Sim.reserve (sim : Sim P s r) {i size : Nat} (built : s i = some t) (can : t.CanReserve size) :
    ∃ t', t.reserve size = some t' ∧ Sim P (Function.update s i (some t')) r := by
  rcases sim i with ⟨unbuilt, -⟩ | ⟨t₀, m, chain, ht, hm, refines⟩
  · simp [built] at unbuilt
  · obtain rfl : t₀ = t := Option.some.inj (ht.symm.trans built)
    obtain ⟨t', reserved, refines'⟩ := refines.reserve can
    refine ⟨t', reserved, ?_⟩
    have sim' := sim.put (i := i) refines'
    rwa [← hm, Function.update_eq_self] at sim'

theorem sim_of_reserving {x : Tables K V F × Maps K V}
    (reachable : ReserveReachable P Table.CanReserve x) : Sim P x.1 x.2 := by
  refine Reachable.invariant (fun x => Sim P x.1 x.2) ?_ ?_ reachable
  · rintro x rfl i
    exact .inl ⟨rfl, rfl⟩
  · intro x y sim step
    cases step with
    | op step => exact sim.step step
    | reserve i size built can reserved =>
      obtain ⟨t'', eq, sim'⟩ := sim.reserve built can
      rw [eq] at reserved
      cases reserved
      exact sim'

/-- In every program whose calls of `reserve` can all be met, a call that can be met goes through and
changes nothing that the table shows, and every other operation, an insertion among them, goes through
as well. -/
theorem reserve_keeps_going (P : Params K V F) {s : Tables K V F} {r : Maps K V}
    (reachable : ReserveReachable P Table.CanReserve (s, r)) :
    (∀ i t, s i = some t → ∃ m, r i = some m ∧ Shows P t m ∧ ∀ size, t.CanReserve size →
      ∃ t', t.reserve size = some t' ∧ Shows P t' m) ∧
    ∀ op, Legal r op → NoSelfCopy r op → ∃ s',
      apply P s op = some (s', (refer P (iterationOrder s) r op).2) := by
  have sim : Sim P s r := sim_of_reserving reachable
  refine ⟨fun i t built => ?_, fun op legal guard => ?_⟩
  · rcases sim i with ⟨unbuilt, -⟩ | ⟨t₀, m, chain, ht, hm, refines⟩
    · simp [built] at unbuilt
    · obtain rfl : t₀ = t := Option.some.inj (ht.symm.trans built)
      refine ⟨m, hm, refines.shows, fun size can => ?_⟩
      obtain ⟨t', reserved, refines'⟩ := refines.reserve can
      exact ⟨t', reserved, refines'.shows⟩
  · obtain ⟨s', applied, -⟩ := sim.apply legal guard
    exact ⟨s', applied⟩

def Present (P : Params K V F) (allowed : Table K V F → Nat → Prop) (t : Table K V F) : Prop :=
  ∃ s r, ReserveReachable P allowed (s, r) ∧ s 0 = some t ∧ r 0 ≠ none

variable {allowed : Table K V F → Nat → Prop}

theorem Present.construct {capacity : Nat} (pos : 1 ≤ capacity) (built : construct P capacity = some t) :
    Present P allowed t := by
  have applied : apply P (fun _ => none) (.construct 0 capacity) =
      some (Function.update (fun _ => none) 0 (some t), .unit) := by
    simp [apply, built]
  exact ⟨_, _, .next (.initial rfl) (.op (.op (.construct 0 capacity) ⟨rfl, pos⟩ trivial applied)),
    Function.update_self .., by simp [refer]⟩

section
variable (present : Present P allowed t)
include present

theorem Present.insert {key : K} {value : V} {yes : Bool}
    (inserted : t.insert P key value = some (t', yes)) : Present P allowed t' := by
  obtain ⟨s, r, reachable, built, known⟩ := present
  obtain ⟨m, hm⟩ := Option.ne_none_iff_exists'.1 known
  have applied : apply P s (.insert 0 key value) = some (Function.update s 0 (some t'), .inserted yes) := by
    simp [apply, Tables.modify, built, inserted]
  exact ⟨_, _, reachable.next (.op (.op (.insert 0 key value) known trivial applied)),
    Function.update_self .., by simp [refer, Maps.modify, hm]⟩

theorem Present.insertAll {es : List (Entry K V)}
    (inserted : t.insertAll P es = some t') : Present P allowed t' := by
  induction es generalizing t with
  | nil =>
    cases inserted
    exact present
  | cons e es ih =>
    simp only [Table.insertAll, List.foldlM_cons, Option.bind_eq_bind, Option.bind_eq_some_iff,
      Option.pure_def, Option.some.injEq] at inserted
    obtain ⟨t₁, ⟨⟨t₂, yes⟩, first, rfl⟩, rest⟩ := inserted
    exact ih (present.insert first) rest

theorem Present.reserve {size : Nat} (guard : allowed t size)
    (reserved : t.reserve size = some t') : Present P allowed t' := by
  obtain ⟨s, r, reachable, built, known⟩ := present
  exact ⟨_, r, reachable.next (.reserve 0 size built guard reserved), Function.update_self .., known⟩

end

def defaultParams : Params Nat Nat Unit := ⟨id, fun size _ count => decide (3 * count < 4 * size), (), 0⟩

def filled (capacity : Nat) (keys : List Nat) : Option (Table Nat Nat Unit) := do
  (← construct defaultParams capacity).insertAll defaultParams (keys.map (newEntry defaultParams · 0))

theorem present_filled {allowed : Table Nat Nat Unit → Nat → Prop} {capacity : Nat} (pos : 1 ≤ capacity)
    {keys : List Nat} {t : Table Nat Nat Unit} (fills : filled capacity keys = some t) :
    Present defaultParams allowed t := by
  obtain ⟨t₀, built, inserted⟩ := Option.bind_eq_some_iff.1 fills
  exact (Present.construct pos built).insertAll inserted

/-- A table that is asked for more buckets while it migrates fails, and so does a table that was asked
for one more than it has as soon as its entries need them. -/
theorem reserve_fails : (∃ t, Present defaultParams (fun _ _ => True) t ∧ t.reserve 5 = none) ∧
    ∃ t, Present defaultParams (fun _ _ => True) t ∧ t.insert defaultParams 6 0 = none := by
  obtain ⟨t, fills, fails⟩ : ∃ t, filled 1 [1] = some t ∧ t.reserve 5 = none := ⟨_, rfl, rfl⟩
  obtain ⟨u, u', fills', reserves, fails'⟩ : ∃ u u', (filled 7 [1, 2, 3, 4] = some u ∧
      u.reserve 8 = some u' ∧ ∃ u'', u'.insert defaultParams 5 0 = some (u'', true) ∧
        u''.insert defaultParams 6 0 = none) := ⟨_, _, rfl, rfl, _, rfl, rfl⟩
  obtain ⟨u'', inserts, fails'⟩ := fails'
  have present : Present defaultParams (fun _ _ => True) u := present_filled (by decide) fills'
  exact ⟨⟨t, present_filled (by decide) fills, fails⟩,
    u'', (present.reserve trivial reserves).insert inserts, fails'⟩

theorem reserve_keeps_going_filled : ∃ t t' m, Present defaultParams Table.CanReserve t ∧
    t.newBegin = 0 ∧ t.bucketCount = 7 ∧ t.reserve 14 = some t' ∧ Shows defaultParams t' m := by
  obtain ⟨t, fills, done, count⟩ : ∃ t, filled 7 [1, 2, 3, 4] = some t ∧ t.newBegin = 0 ∧
      t.bucketCount = 7 := ⟨_, rfl, rfl, rfl⟩
  have present : Present defaultParams Table.CanReserve t := present_filled (by decide) fills
  have ⟨s, r, reachable, built, _⟩ := present
  obtain ⟨m, -, -, reserves⟩ := (reserve_keeps_going defaultParams reachable).1 0 t built
  obtain ⟨t', reserved, shows⟩ := reserves 14 (.inr ⟨done, by rw [count]⟩)
  exact ⟨t, t', m, present, done, count, reserved, shows⟩

end Prpc.HashTable
