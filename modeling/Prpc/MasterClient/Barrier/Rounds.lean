import Prpc.MasterClient.Barrier.Area

/-!
A round has two phases.
-/

namespace Prpc.MasterClient
open Lib Master

inductive Place
  | out
  | entering
  | inside (gen : Text)
  | elected (gen : Text)
  | waiting (gen : Text)
  | last (gen : Text)
  | unready
  | leaving (gen : Text)
  | failed

def BarrierPc.place : BarrierPc → Place
  | .idle | .watchReady | .waitNotReady => .out
  | .addBase | .addNode | .genNode => .entering
  | .readNodes gen | .waitReady gen => .inside gen
  | .watchNodes gen | .addReady gen => .elected gen
  | .waitAlone gen => .waiting gen
  | .delLast gen => .last gen
  | .delReady => .unready
  | .delNode gen => .leaving gen
  | .failed => .failed

def Place.gen : Place → Option Text
  | .inside gen | .elected gen | .waiting gen | .last gen | .leaving gen => some gen
  | _ => none

def BarrierState.places (s : BarrierState) (c : ClientId) : Place := (s.pc c).place

variable {b : Barrier} {s : BarrierState} {c : ClientId} {r G : Nat} {Q : Nat → Option ClientId}

def IsLast (Q : Nat → Option ClientId) (gen : Text) : Prop := ∀ j : Nat, Q j ≠ none → genKey j ≤ gen

def GatherAt (b : Barrier) (s : BarrierState) (r : Nat) (Q : Nat → Option ClientId) (c : ClientId) :
    Place → Prop
  | .out | .entering => s.generated c = r
  | .inside _ => s.generated c = r + 1
  | .elected gen => (∀ c' ∈ b.members, s.generated c' = r + 1) ∧ IsLast Q gen ∧ s.leaders r = [c]
  | _ => False

structure Gather (b : Barrier) (s : BarrierState) (r : Nat) (Q : Nat → Option ClientId) : Prop where
  returned : ∀ c ∈ b.members, s.returned c = r
  place : ∀ c ∈ b.members, GatherAt b s r Q c (s.places c)
  leaders : s.leaders r = [] ∨ ∃ c ∈ b.members, ∃ gen, s.places c = .elected gen

variable {place : Place}

theorem Gather.of_place (phase : Gather b s r Q) (member : c ∈ b.members)
    (h : s.places c = place) : GatherAt b s r Q c place :=
  h ▸ phase.place c member

theorem GatherAt.congr {s' : BarrierState} {Q' : Nat → Option ClientId}
    (h : GatherAt b s r Q c place) (ne : ∀ gen, place ≠ .elected gen)
    (generated : s'.generated c = s.generated c) : GatherAt b s' r Q' c place := by
  cases place with
  | out | entering | inside => exact generated.trans h
  | elected gen => exact absurd rfl (ne gen)
  | _ => exact h

theorem GatherAt.generated (member : c ∈ b.members)
    (h : GatherAt b s r Q c place) : s.generated c = r ∨ s.generated c = r + 1 := by
  cases place with
  | out | entering => exact .inl h
  | inside gen => exact .inr h
  | elected gen => exact .inr (h.1 c member)
  | _ => exact absurd h id

def Alone (b : Barrier) (places : ClientId → Place) (c : ClientId) : Prop :=
  ∀ c' ∈ b.members, c' ≠ c → (places c').gen = none

def LeadAt (b : Barrier) (places : ClientId → Place) (Q : Nat → Option ClientId) (c : ClientId) : Place → Prop
  | .waiting gen => IsLast Q gen
  | .last _ => Alone b places c
  | .unready => Alone b places c
  | _ => False

theorem LeadAt.imp {places places' : ClientId → Place} {Q' : Nat → Option ClientId}
    (h : LeadAt b places Q c place) (alone : Alone b places c → Alone b places' c)
    (last : ∀ gen, IsLast Q gen → IsLast Q' gen) : LeadAt b places' Q' c place := by
  cases place with
  | waiting gen => exact last gen h
  | last | unready => exact alone h
  | _ => exact h

def FollowAt (s : BarrierState) (r : Nat) (c : ClientId) : Place → Prop
  | .out => s.returned c = r + 1
  | .inside _ | .leaving _ => s.returned c = r
  | _ => False

theorem FollowAt.returned (h : FollowAt s r c place) : s.returned c = r ∨ s.returned c = r + 1 := by
  cases place with
  | out => exact .inr h
  | inside gen | leaving gen => exact .inl h
  | _ => exact absurd h id

theorem FollowAt.congr {s' : BarrierState} (h : FollowAt s r c place)
    (returned : s'.returned c = s.returned c) : FollowAt s' r c place := by
  cases place with
  | out | inside | leaving => exact returned.trans h
  | _ => exact h

structure Leave (b : Barrier) (s : BarrierState) (r : Nat) (Q : Nat → Option ClientId)
    (leader : ClientId) : Prop where
  member : leader ∈ b.members
  generated : ∀ c ∈ b.members, s.generated c = r + 1
  leaders : s.leaders r = [leader]
  returned : s.returned leader = r
  lead : LeadAt b s.places Q leader (s.places leader)
  follow : ∀ c ∈ b.members, c ≠ leader → FollowAt s r c (s.places c)

variable {L : ClientId}

theorem Leave.of_lead (phase : Leave b s r Q L)
    (h : s.places L = place) : LeadAt b s.places Q L place :=
  h ▸ phase.lead

theorem Leave.of_follow (phase : Leave b s r Q L)
    (member : c ∈ b.members) (ne : c ≠ L) (h : s.places c = place) : FollowAt s r c place :=
  h ▸ phase.follow c member ne

theorem Gather.counts (phase : Gather b s r Q) (member : c ∈ b.members) :
    s.returned c = r ∧ (s.generated c = r ∨ s.generated c = r + 1) :=
  ⟨phase.returned c member, (phase.place c member).generated member⟩

theorem Leave.counts (phase : Leave b s r Q L) (member : c ∈ b.members) :
    s.generated c = r + 1 ∧ (s.returned c = r ∨ s.returned c = r + 1) := by
  refine ⟨phase.generated c member, ?_⟩
  by_cases eq : c = L
  · exact .inl (eq ▸ phase.returned)
  · exact (phase.follow c member eq).returned

def Phase (b : Barrier) (s : BarrierState) (r : Nat) (Q : Nat → Option ClientId) : Option ClientId → Prop
  | none => Gather b s r Q
  | some leader => Leave b s r Q leader

def Made (b : Barrier) (m : State) : BarrierPc → Prop
  | .addNode => b.base ∈ m.path
  | .genNode => b.nodes ∈ m.path
  | _ => True

structure BarrierInv (b : Barrier) (s : BarrierState) (r G : Nat) (Q : Nat → Option ClientId)
    (leader : Option ClientId) : Prop where
  area : Area b s.master G Q leader
  made : ∀ c ∈ b.members, Made b s.master (s.pc c)
  mine : ∀ c ∈ b.members, ∀ gen, (s.places c).gen = some gen → ∃ i : Nat, gen = genKey i ∧ Q i = some c
  theirs : ∀ (i : Nat) c, Q i = some c → c ∈ b.members ∧ (s.places c).gen = some (genKey i)
  logged : ∀ c k gen, s.node c k = some gen → ∃ i : Nat, i < G ∧ gen = genKey i
  distinct : ∀ c c' k k' gen, s.node c k = some gen → s.node c' k' = some gen → k = k'
  current : ∀ c ∈ b.members, ∀ gen, (s.places c).gen = some gen → s.node c r = some gen
  past : ∀ k < r, ∃ c ∈ b.members, s.leaders k = [c]
  future : ∀ k > r, s.leaders k = []
  phase : Phase b s r Q leader

variable {leader : Option ClientId}

theorem BarrierInv.at_place
    (inv : BarrierInv b s r G Q leader) (member : c ∈ b.members) (h : s.places c = place) :
    leader = none ∧ GatherAt b s r Q c place ∨ leader = some c ∧ LeadAt b s.places Q c place ∨
      FollowAt s r c place := by
  cases leader with
  | none => exact .inl ⟨rfl, Gather.of_place inv.phase member h⟩
  | some L =>
    by_cases eq : c = L
    · subst eq
      exact .inr (.inl ⟨rfl, Leave.of_lead inv.phase h⟩)
    · exact .inr (.inr (Leave.of_follow inv.phase member eq h))

variable {pc : BarrierPc}

theorem Made.keeps {m m' : State} (made : Made b m pc) (keeps : Keeps b m m') : Made b m' pc := by
  cases pc with
  | addNode => exact keeps.base made
  | genNode => exact keeps.nodes made
  | _ => trivial

theorem places_setPc (s : BarrierState) (c : ClientId) (pc : BarrierPc) :
    (s.setPc c pc).places = Function.update s.places c pc.place := by
  funext c'
  by_cases eq : c' = c
  · subst eq
    simp [BarrierState.places, BarrierState.setPc]
  · simp [BarrierState.places, BarrierState.setPc, eq]

theorem places_of_pc (at_ : s.pc c = pc) : s.places c = pc.place := congrArg BarrierPc.place at_

theorem forall_places_setPc {P : ClientId → Place → Prop}
    (self : c ∈ b.members → P c pc.place)
    (others : ∀ c' ∈ b.members, c' ≠ c → P c' (s.places c')) :
    ∀ c' ∈ b.members, P c' ((s.setPc c pc).places c') := by
  intro c' member
  rw [places_setPc]
  by_cases eq : c' = c
  · subst eq
    rw [Function.update_self]
    exact self member
  · rw [Function.update_of_ne eq]
    exact others c' member eq

variable {m : State}

theorem made_setPc (made : ∀ c ∈ b.members, Made b s.master (s.pc c))
    (keeps : Keeps b s.master m) (next : Made b m pc) :
    ∀ c' ∈ b.members, Made b m ((s.setPc c pc).pc c') := by
  intro c' member
  by_cases eq : c' = c
  · subst eq
    simpa [BarrierState.setPc] using next
  · have h := (made c' member).keeps keeps
    simpa [BarrierState.setPc, eq] using h

theorem BarrierInv.quiet (inv : BarrierInv b s r G Q leader) (area : Area b m G Q leader) (keeps : Keeps b s.master m) (next : Made b m pc)
    (place : pc.place = s.places c) : BarrierInv b { s.setPc c pc with master := m } r G Q leader := by
  have places : (s.setPc c pc).places = s.places := by
    rw [places_setPc, place, Function.update_eq_self]
  have places' : ({ s.setPc c pc with master := m } : BarrierState).places = s.places := places
  refine ⟨area, made_setPc inv.made keeps next, ?_, ?_, inv.logged, inv.distinct, ?_, inv.past,
    inv.future, ?_⟩
  · rw [places']
    exact inv.mine
  · rw [places']
    exact inv.theirs
  · rw [places']
    exact inv.current
  · cases leader with
    | none =>
      obtain ⟨returned, place, leaders⟩ := inv.phase
      exact ⟨returned, by rw [places']; exact place, by rw [places']; exact leaders⟩
    | some leader =>
      obtain ⟨member, generated, leaders, returned, lead, follow⟩ := inv.phase
      refine ⟨member, generated, leaders, returned, ?_, ?_⟩
      · rw [places']
        exact lead
      · rw [places']
        exact follow

theorem BarrierInv.all_inside (inv : BarrierInv b s r G Q leader)
    (full : (tickets G Q).card = b.number) : ∀ c ∈ b.members, ∃ i : Nat, Q i = some c := by
  have owner : ∀ i ∈ tickets G Q, Q i = some ((Q i).getD 0) := by
    intro i mem
    have present : Q i ≠ none := (Finset.mem_filter.1 mem).2
    obtain ⟨c, hc⟩ := Option.ne_none_iff_exists'.1 present
    simp [hc]
  have inj : Set.InjOn (fun i => (Q i).getD 0) (tickets G Q) := by
    intro i hi j hj eq
    obtain ⟨-, mine⟩ := inv.theirs i _ (owner i hi)
    obtain ⟨-, mine'⟩ := inv.theirs j _ (owner j hj)
    simp only at eq
    rw [eq, mine', Option.some.injEq] at mine
    have queue := inv.area.queue (inv.area.mem_nodes (Finset.mem_filter.1 hi).2)
    exact (queue.key_inj (Finset.mem_filter.1 hj).2 (queue.lt_bound (Finset.mem_filter.1 hi).2) mine).symm
  have image : (tickets G Q).image (fun i => (Q i).getD 0) = b.members := by
    apply Finset.eq_of_subset_of_card_le
    · intro c mem
      obtain ⟨i, hi, rfl⟩ := Finset.mem_image.1 mem
      exact (inv.theirs i _ (owner i hi)).1
    · rw [Finset.card_image_of_injOn inj, full]
      exact le_refl _
  intro c member
  rw [← image, Finset.mem_image] at member
  obtain ⟨i, hi, rfl⟩ := member
  exact ⟨i, owner i hi⟩

theorem BarrierInv.alone (inv : BarrierInv b s r G Q leader) {i : Nat}
    (mine : Q i = some c) (one : (tickets G Q).card = 1) : Alone b s.places c := by
  have queue := inv.area.queue (inv.area.mem_nodes (i := i) (by simp [mine]))
  obtain ⟨k, hk⟩ := Finset.card_eq_one.1 one
  have only : ∀ j, Q j ≠ none → j = k := by
    intro j hj
    have mem := queue.mem_tickets.2 hj
    rwa [hk, Finset.mem_singleton] at mem
  intro c' member ne
  by_contra some_gen
  obtain ⟨gen, hgen⟩ := Option.ne_none_iff_exists'.1 some_gen
  obtain ⟨j, -, hj⟩ := inv.mine c' member gen hgen
  rw [only i (by simp [mine])] at mine
  rw [only j (by simp [hj]), mine] at hj
  exact ne (Option.some.inj hj).symm

theorem Queue.isLast_of_getLast {P gen : Text} (queue : Queue m P G Q)
    (back : ((tickets G Q).sort.map fun i : Nat => genKey i).getLast? = some gen) :
    IsLast Q gen := by
  intro j hj
  obtain ⟨front, eq⟩ := List.getLast?_eq_some_iff.1 back
  have mem : genKey j ∈ (tickets G Q).sort.map fun i : Nat => genKey i :=
    List.mem_map.2 ⟨j, (Finset.mem_sort _).2 (queue.mem_tickets.2 hj), rfl⟩
  have sorted := queue.children_sorted.pairwise
  rw [eq] at mem sorted
  rcases List.mem_append.1 mem with mem | mem
  · exact ((List.pairwise_append.1 sorted).2.2 _ mem gen (List.mem_singleton.2 rfl)).le
  · exact (List.mem_singleton.1 mem).le

theorem BarrierInv.last_unique (inv : BarrierInv b s r G Q leader)
    {c' : ClientId} {gen gen' : Text} (member : c ∈ b.members) (member' : c' ∈ b.members)
    (mine : (s.places c).gen = some gen) (mine' : (s.places c').gen = some gen')
    (isLast : IsLast Q gen) (isLast' : IsLast Q gen') : c = c' := by
  obtain ⟨i, rfl, hi⟩ := inv.mine c member gen mine
  obtain ⟨j, rfl, hj⟩ := inv.mine c' member' gen' mine'
  have queue := inv.area.queue (inv.area.mem_nodes (i := i) (by simp [hi]))
  have same : genKey i = genKey j := le_antisymm (isLast' i (by simp [hi])) (isLast j (by simp [hj]))
  rw [queue.key_inj (by simp [hi]) (queue.lt_bound (by simp [hj])) same, hj] at hi
  exact (Option.some.inj hi).symm

end Prpc.MasterClient
