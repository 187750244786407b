import Prpc.MasterClient.Barrier.Rounds

namespace Prpc.MasterClient
open Lib Master
open Function (update update_self update_apply update_of_ne)

variable {b : Barrier} {s s' : BarrierState} {c : ClientId} {m : State} {r G : Nat}
  {Q : Nat → Option ClientId} {leader : Option ClientId} {gen : Text}

theorem gen_update {places : ClientId → Place} {place : Place} (same : place.gen = (places c).gen)
    (c' : ClientId) : (update places c place c').gen = (places c').gen := by
  by_cases eq : c' = c
  · rw [eq, update_self, same]
  · rw [update_of_ne eq]

theorem BarrierInv.move (inv : BarrierInv b s r G Q leader) {leader' : Option ClientId}
    {pc : BarrierPc} (leaders : Nat → List ClientId) (area : Area b m G Q leader')
    (keeps : Keeps b s.master m) (next : Made b m pc) (same : pc.place.gen = (s.places c).gen)
    (past : ∀ k < r, ∃ c ∈ b.members, leaders k = [c]) (future : ∀ k > r, leaders k = [])
    (phase : Phase b { s.setPc c pc with master := m, leaders := leaders } r Q leader') :
    BarrierInv b { s.setPc c pc with master := m, leaders := leaders } r G Q leader' := by
  have places : ({ s.setPc c pc with master := m, leaders := leaders } : BarrierState).places =
    update s.places c pc.place := places_setPc s c pc
  refine ⟨area, made_setPc inv.made keeps next, ?_, ?_, inv.logged, inv.distinct, ?_, past, future, phase⟩
  · intro c' member gen' h
    rw [places, gen_update same] at h
    exact inv.mine c' member gen' h
  · intro i c' h
    rw [places, gen_update same]
    exact inv.theirs i c' h
  · intro c' member gen' h
    rw [places, gen_update same] at h
    exact inv.current c' member gen' h

theorem BarrierInv.enter (inv : BarrierInv b s r G Q none) (out : s.places c = .out) :
    BarrierInv b (s.setPc c .addBase) r G Q none := by
  have phase : Gather b s r Q := inv.phase
  refine inv.move s.leaders inv.area (.refl b _) trivial (by rw [out]; rfl) inv.past inv.future
    ⟨phase.returned, ?_, ?_⟩
  · exact forall_places_setPc (P := GatherAt b s r Q) (fun member => (phase.of_place member out :))
      fun c' member _ => phase.place c' member
  · rcases phase.leaders with none | ⟨c', member, gen, h⟩
    · exact .inl none
    · refine .inr ⟨c', member, gen, ?_⟩
      show (s.setPc c .addBase).places c' = _
      rw [places_setPc, update_of_ne, h]
      rintro rfl
      rw [out] at h
      cases h

section
variable (inv : BarrierInv b s r G Q leader) (member : c ∈ b.members)
include inv member

theorem BarrierInv.elect
    (inside : s.places c = .inside gen) (full : (tickets G Q).card = b.number)
    (isLast : IsLast Q gen) : leader = none ∧ BarrierInv b (s.lead c gen) r G Q leader := by
  have gen_c : (s.places c).gen = some gen := by rw [inside]; rfl
  cases leader with
  | some L =>
    exfalso
    have phase : Leave b s r Q L := inv.phase
    have ne : c ≠ L := by
      rintro rfl
      exact phase.of_lead inside
    have notAlone : ¬ Alone b s.places L := by
      intro alone
      have none := alone c member ne
      rw [gen_c] at none
      cases none
    cases place : s.places L with
    | waiting gen' =>
      exact ne (inv.last_unique member phase.member gen_c (by rw [place]; rfl) isLast (phase.of_lead place))
    | last | unready => exact notAlone (phase.of_lead place)
    | _ => exact phase.of_lead place
  | none =>
    have phase : Gather b s r Q := inv.phase
    have generated_c : s.generated c = r + 1 := phase.of_place member inside
    have notElected : ∀ c' ∈ b.members, ∀ gen', s.places c' ≠ .elected gen' := by
      intro c' member' gen' place
      have eq := inv.last_unique member member' gen_c (by rw [place]; rfl) isLast
        (phase.of_place member' place).2.1
      rw [← eq, inside] at place
      cases place
    have leaders : s.leaders r = [] := by
      rcases phase.leaders with none | ⟨c', member', gen', place⟩
      · exact none
      · exact absurd place (notElected c' member' gen')
    have everybody : ∀ c' ∈ b.members, s.generated c' = r + 1 := by
      intro c' member'
      obtain ⟨i, hi⟩ := inv.all_inside full c' member'
      obtain ⟨-, gen'⟩ := inv.theirs i c' hi
      cases place : s.places c' with
      | inside g => exact phase.of_place member' place
      | elected g => exact absurd place (notElected c' member' g)
      | out | entering | unready | failed =>
        rw [place] at gen'
        cases gen'
      | _ => exact absurd (phase.of_place member' place) id
    have lead_eq : s.lead c gen = { s.setPc c (.watchNodes gen) with
        master := s.master, leaders := update s.leaders r [c] } := by
      simp [BarrierState.lead, generated_c, leaders, BarrierState.setPc]
    rw [lead_eq]
    refine ⟨rfl, inv.move _ inv.area (.refl b _) trivial (by rw [inside]; rfl) ?_ ?_
      ⟨phase.returned, ?_, .inr ⟨c, member, gen, ?_⟩⟩⟩
    · intro k lt
      rw [update_of_ne (Nat.ne_of_lt lt)]
      exact inv.past k lt
    · intro k gt
      rw [update_of_ne (Nat.ne_of_gt gt)]
      exact inv.future k gt
    · exact forall_places_setPc (P := GatherAt b _ r Q)
        (fun _ => ⟨everybody, isLast, update_self ..⟩)
        fun c' member' _ => (phase.place c' member').congr (notElected c' member') rfl
    · show (s.setPc c (.watchNodes gen)).places c = _
      rw [places_setPc, update_self]
      rfl

theorem BarrierInv.gather_of
    (place : s.places c = .entering ∨ ∃ gen, s.places c = .elected gen) : leader = none := by
  rcases place with place | ⟨gen, place⟩ <;> rcases inv.at_place member place with ⟨none, -⟩ | ⟨-, h⟩ | h <;>
    first | exact none | exact absurd h id

end

theorem BarrierInv.announce (inv : BarrierInv b s r G Q none) (member : c ∈ b.members)
    (elected : s.places c = .elected gen) (area : Area b m G Q (some c))
    (keeps : Keeps b s.master m) :
    BarrierInv b { s.setPc c (.waitAlone gen) with master := m } r G Q (some c) := by
  have phase : Gather b s r Q := inv.phase
  obtain ⟨everybody, isLast, leaders⟩ : (∀ c' ∈ b.members, s.generated c' = r + 1) ∧
      IsLast Q gen ∧ s.leaders r = [c] := phase.of_place member elected
  have places : (s.setPc c (.waitAlone gen)).places = update s.places c (.waiting gen) := places_setPc s c _
  refine inv.move s.leaders area keeps trivial (by rw [elected]; rfl) inv.past
    inv.future ⟨member, everybody, leaders, phase.returned c member, ?_, fun c' member' ne => ?_⟩
  · show LeadAt b _ Q c ((s.setPc c (.waitAlone gen)).places c)
    rw [places, update_self]
    exact isLast
  · show FollowAt s r c' ((s.setPc c (.waitAlone gen)).places c')
    rw [places, update_of_ne ne]
    cases place : s.places c' with
    | inside g => exact phase.returned c' member'
    | elected g =>
      exact absurd (inv.last_unique member' member (by rw [place]; rfl) (by rw [elected]; rfl)
        (phase.of_place member' place).2.1 isLast) ne
    | out | entering =>
      have before : s.generated c' = r := phase.of_place member' place
      have generated := everybody c' member'
      omega
    | _ => exact absurd (phase.of_place member' place) id

variable {L : ClientId}

theorem BarrierInv.lead_on (inv : BarrierInv b s r G Q (some L)) {pc : BarrierPc}
    (same : pc.place.gen = (s.places L).gen) (next : Made b s.master pc)
    (lead : LeadAt b (update s.places L pc.place) Q L pc.place) :
    BarrierInv b (s.setPc L pc) r G Q (some L) := by
  have phase : Leave b s r Q L := inv.phase
  have places := places_setPc s L pc
  refine inv.move s.leaders inv.area (.refl b _) next same inv.past inv.future
    ⟨phase.member, phase.generated, phase.leaders, phase.returned, ?_, fun c' member' ne => ?_⟩
  · show LeadAt b (s.setPc L pc).places Q L ((s.setPc L pc).places L)
    rw [places, update_self]
    exact lead
  · show FollowAt s r c' ((s.setPc L pc).places c')
    rw [places, update_of_ne ne]
    exact phase.follow c' member' ne

theorem BarrierInv.leader_of_waiting (inv : BarrierInv b s r G Q leader) (member : c ∈ b.members)
    (place : (∃ gen, s.places c = .waiting gen) ∨ (∃ gen, s.places c = .last gen) ∨
      s.places c = .unready) : leader = some c := by
  rcases place with ⟨gen, place⟩ | ⟨gen, place⟩ | place <;>
    rcases inv.at_place member place with ⟨-, h⟩ | ⟨eq, -⟩ | h <;>
    first | exact eq | exact absurd h id

theorem Alone.update {places : ClientId → Place} {place : Place} (alone : Alone b places c) :
    Alone b (update places c place) c := by
  intro c' member ne
  rw [update_of_ne ne]
  exact alone c' member ne

theorem BarrierInv.see (inv : BarrierInv b s r G Q leader) (member : c ∈ b.members)
    (inside : s.places c = .inside gen) (present : leader ≠ none) :
    BarrierInv b (s.setPc c (.delNode gen)) r G Q leader := by
  obtain ⟨L, rfl⟩ := Option.ne_none_iff_exists'.1 present
  have phase : Leave b s r Q L := inv.phase
  have ne : c ≠ L := by
    rintro rfl
    exact phase.of_lead inside
  refine inv.move s.leaders inv.area (.refl b _) trivial (by rw [inside]; rfl) inv.past
    inv.future ⟨phase.member, phase.generated, phase.leaders, phase.returned, ?_, ?_⟩
  · show LeadAt b (s.setPc c (.delNode gen)).places Q L ((s.setPc c (.delNode gen)).places L)
    rw [places_setPc, update_of_ne ne.symm]
    refine phase.lead.imp (fun alone c' member' ne' => ?_) fun _ => id
    rw [gen_update (by rw [inside]; rfl)]
    exact alone c' member' ne'
  · exact forall_places_setPc (P := fun c' place => c' ≠ L → FollowAt s r c' place)
      (fun _ _ => (phase.of_follow member ne inside :)) fun c' member' _ => phase.follow c' member'

variable {i : Nat}

theorem BarrierInv.unlink (inv : BarrierInv b s r G Q leader) (place : Place)
    (member : c ∈ b.members) (mine : Q i = some c) (gone : place.gen = none) :
    (∀ c' ∈ b.members, ∀ g, (update s.places c place c').gen = some g →
      ∃ j : Nat, g = genKey j ∧ update Q i none j = some c') ∧
    (∀ (j : Nat) c', update Q i none j = some c' →
      c' ∈ b.members ∧ (update s.places c place c').gen = some (genKey j)) ∧
    (∀ c' ∈ b.members, ∀ g, (update s.places c place c').gen = some g → s.node c' r = some g) := by
  obtain ⟨-, gen_c⟩ := inv.theirs i c mine
  have other : ∀ c' g, (update s.places c place c').gen = some g → c' ≠ c ∧ (s.places c').gen = some g := by
    intro c' g h
    by_cases eq : c' = c
    · rw [eq, update_self, gone] at h
      cases h
    · rw [update_of_ne eq] at h
      exact ⟨eq, h⟩
  refine ⟨fun c' member' g h => ?_, fun j c' h => ?_, fun c' member' g h => ?_⟩
  · obtain ⟨ne, h⟩ := other c' g h
    obtain ⟨j, eq, hj⟩ := inv.mine c' member' g h
    refine ⟨j, eq, ?_⟩
    rw [update_of_ne, hj]
    rintro rfl
    rw [mine] at hj
    exact ne (Option.some.inj hj).symm
  · by_cases eq : j = i
    · subst eq
      simp at h
    · rw [update_of_ne eq] at h
      obtain ⟨member', gen'⟩ := inv.theirs j c' h
      refine ⟨member', ?_⟩
      rw [update_of_ne, gen']
      rintro rfl
      have queue := inv.area.queue (inv.area.mem_nodes (i := i) (by simp [mine]))
      rw [gen_c, Option.some.injEq] at gen'
      exact eq (queue.key_inj (by simp [mine]) (queue.lt_bound (by simp [h])) gen').symm
  · exact inv.current c' member' g (other c' g h).2

theorem IsLast.update (isLast : IsLast Q gen) : IsLast (update Q i none) gen := by
  intro j hj
  refine isLast j fun none => hj ?_
  rw [update_apply]
  split
  · rfl
  · exact none

theorem BarrierInv.drop (inv : BarrierInv b s r G Q (some L))
    (last : s.places L = .last gen) (mine : Q i = some L)
    (area : Area b m G (update Q i none) (some L)) (keeps : Keeps b s.master m) :
    BarrierInv b { s.setPc L .delReady with master := m } r G (update Q i none) (some L) := by
  have phase : Leave b s r Q L := inv.phase
  have places : ({ s.setPc L .delReady with master := m } : BarrierState).places =
    update s.places L .unready := places_setPc s L .delReady
  obtain ⟨mine', theirs, current⟩ := inv.unlink .unready phase.member mine rfl
  have alone : Alone b s.places L := phase.of_lead last
  refine ⟨area, made_setPc (s := s) inv.made keeps trivial, places ▸ mine', places ▸ theirs,
    inv.logged, inv.distinct, places ▸ current, inv.past, inv.future, phase.member, phase.generated,
    phase.leaders, phase.returned, ?_, fun c' member' ne => ?_⟩
  · rw [places, update_self]
    exact alone.update
  · rw [places, update_of_ne ne]
    exact phase.follow c' member' ne

theorem BarrierInv.close (inv : BarrierInv b s r G Q (some L))
    (unready : s.places L = .unready) (area : Area b m G Q none) (keeps : Keeps b s.master m) :
    BarrierInv b (({ s with master := m } : BarrierState).finish L) (r + 1) G Q none := by
  have phase : Leave b s r Q L := inv.phase
  have places : (({ s with master := m } : BarrierState).finish L).places =
    update s.places L .out := places_setPc s L .idle
  have alone : Alone b s.places L := phase.of_lead unready
  have outside : ∀ c' ∈ b.members, c' ≠ L → s.places c' = .out := by
    intro c' member' ne
    have none := alone c' member' ne
    cases place : s.places c' with
    | out => rfl
    | inside | leaving =>
      rw [place] at none
      cases none
    | _ => exact absurd (phase.of_follow member' ne place) id
  have noNode : ∀ c' ∈ b.members, (update s.places L .out c').gen = none := by
    intro c' member'
    rw [gen_update (by rw [unready]; rfl)]
    by_cases eq : c' = L
    · rw [eq, unready]
      rfl
    · exact alone c' member' eq
  refine ⟨area, made_setPc (s := s) inv.made keeps trivial, ?_, ?_, inv.logged, inv.distinct, ?_, ?_,
    fun k gt => inv.future k (by omega), fun c' member' => ?_, ?_, .inl (inv.future _ (by omega))⟩
  · intro c' member' g h
    rw [places, noNode c' member'] at h
    cases h
  · intro i c' h
    rw [places, gen_update (by rw [unready]; rfl)]
    exact inv.theirs i c' h
  · intro c' member' g h
    rw [places, noNode c' member'] at h
    cases h
  · intro k lt
    rcases Nat.lt_or_eq_of_le (Nat.le_of_lt_succ lt) with lt | eq
    · exact inv.past k lt
    · exact ⟨L, phase.member, eq ▸ phase.leaders⟩
  · show update s.returned L (s.returned L + 1) c' = r + 1
    by_cases eq : c' = L
    · rw [eq, update_self, phase.returned]
    · rw [update_of_ne eq]
      exact phase.of_follow member' eq (outside c' member' eq)
  · refine forall_places_setPc (s := s) (P := GatherAt b s (r + 1) Q) (phase.generated L)
      fun c' member' ne => ?_
    rw [outside c' member' ne]
    exact phase.generated c' member'

theorem BarrierInv.leave (inv : BarrierInv b s r G Q leader) (member : c ∈ b.members)
    (leaving : s.places c = .leaving gen) (mine : Q i = some c)
    (area : Area b m G (update Q i none) leader) (keeps : Keeps b s.master m) :
    BarrierInv b (({ s with master := m } : BarrierState).finish c) r G (update Q i none)
      leader := by
  cases leader with
  | none => exact absurd (Gather.of_place inv.phase member leaving) id
  | some L =>
    have phase : Leave b s r Q L := inv.phase
    have ne : c ≠ L := by
      rintro rfl
      exact phase.of_lead leaving
    have returned : s.returned c = r := phase.of_follow member ne leaving
    have places : (({ s with master := m } : BarrierState).finish c).places =
      update s.places c .out := places_setPc s c .idle
    obtain ⟨mine', theirs, current⟩ := inv.unlink .out member mine rfl
    refine ⟨area, made_setPc (s := s) inv.made keeps trivial, places ▸ mine', places ▸ theirs,
      inv.logged, inv.distinct, places ▸ current, inv.past, inv.future, phase.member,
      phase.generated, phase.leaders, ?_, ?_, ?_⟩
    · show update s.returned c (s.returned c + 1) L = r
      rw [update_of_ne ne.symm, phase.returned]
    · rw [places, update_of_ne ne.symm]
      refine phase.lead.imp (fun alone c' member' ne' => ?_) fun _ => IsLast.update
      by_cases eq : c' = c
      · rw [eq, update_self]
        rfl
      · rw [update_of_ne eq]
        exact alone c' member' ne'
    · refine forall_places_setPc (P := fun c' place => c' ≠ L → FollowAt _ r c' place)
        (fun _ _ => ?_) fun c' member' ne' other => ?_
      · show update s.returned c (s.returned c + 1) c = r + 1
        rw [update_self, returned]
      · exact (phase.follow c' member' other).congr (update_of_ne ne' _ _)

theorem BarrierInv.draw (inv : BarrierInv b s r G Q none) (member : c ∈ b.members)
    (entering : s.places c = .entering) (small : G < 2 ^ 31)
    (area : Area b m (G + 1) (update Q G (some c)) none) (keeps : Keeps b s.master m) :
    BarrierInv b (({ s with master := m } : BarrierState).generate c (genKey G)) r (G + 1)
      (update Q G (some c)) none := by
  have phase : Gather b s r Q := inv.phase
  have generated : s.generated c = r := phase.of_place member entering
  have places : (({ s with master := m } : BarrierState).generate c (genKey G)).places =
    update s.places c (.inside (genKey G)) := places_setPc s c _
  have fresh : Q G = none := by
    by_contra present
    have queue := inv.area.queue (inv.area.mem_nodes present)
    exact absurd (queue.bound G present) (Nat.lt_irrefl G)
  have node_eq : ∀ c' k, (({ s with master := m } : BarrierState).generate c (genKey G)).node c' k =
      if c' = c ∧ k = r then some (genKey G) else s.node c' k := by
    intro c' k
    show update s.node c (update (s.node c) (s.generated c) (some (genKey G))) c' k = _
    by_cases eq : c' = c
    · subst eq
      by_cases eq : k = r
      · subst eq
        simp [generated]
      · simp [generated, eq]
    · simp [eq]
  have old : ∀ c' k, s.node c' k ≠ some (genKey G) := by
    intro c' k h
    obtain ⟨i, lt, eq⟩ := inv.logged c' k _ h
    have := genKey_inj (by omega) (by omega) eq
    omega
  refine ⟨area, made_setPc (s := s) inv.made keeps trivial, ?_, ?_, ?_, ?_, ?_, inv.past, inv.future, ?_⟩
  · intro c' member' g h
    rw [places] at h
    by_cases eq : c' = c
    · rw [eq, update_self] at h
      cases h
      exact ⟨G, rfl, by rw [eq, update_self]⟩
    · rw [update_of_ne eq] at h
      obtain ⟨i, eq', hi⟩ := inv.mine c' member' g h
      refine ⟨i, eq', ?_⟩
      rw [update_of_ne, hi]
      rintro rfl
      rw [fresh] at hi
      cases hi
  · intro i c' h
    rw [places]
    by_cases eq : i = G
    · rw [eq, update_self] at h
      cases h
      rw [eq, update_self]
      exact ⟨member, rfl⟩
    · rw [update_of_ne eq] at h
      obtain ⟨member', gen'⟩ := inv.theirs i c' h
      refine ⟨member', ?_⟩
      rw [update_of_ne, gen']
      rintro rfl
      rw [entering] at gen'
      cases gen'
  · intro c' k g h
    rw [node_eq] at h
    split at h
    · cases h
      exact ⟨G, Nat.lt_succ_self G, rfl⟩
    · obtain ⟨i, lt, eq⟩ := inv.logged c' k g h
      exact ⟨i, lt.trans (Nat.lt_succ_self G), eq⟩
  · intro c₁ c₂ k₁ k₂ g h₁ h₂
    rw [node_eq] at h₁ h₂
    split at h₁ <;> split at h₂
    · rename_i eq₁ eq₂
      rw [eq₁.2, eq₂.2]
    · cases h₁
      exact absurd h₂ (old _ _)
    · cases h₂
      exact absurd h₁ (old _ _)
    · exact inv.distinct c₁ c₂ k₁ k₂ g h₁ h₂
  · intro c' member' g h
    rw [places] at h
    rw [node_eq]
    by_cases eq : c' = c
    · rw [eq, update_self] at h
      cases h
      rw [if_pos ⟨eq, rfl⟩]
    · rw [update_of_ne eq] at h
      rw [if_neg fun both => eq both.1]
      exact inv.current c' member' g h
  · have notElected : ∀ c' ∈ b.members, ∀ g, s.places c' ≠ .elected g := by
      intro c' member' g place
      have := (phase.of_place member' place).1 c member
      omega
    refine ⟨phase.returned, ?_, ?_⟩
    · refine forall_places_setPc (P := GatherAt b _ r _) (fun _ => ?_) fun c' member' ne => ?_
      · show update s.generated c (s.generated c + 1) c = r + 1
        rw [update_self, generated]
      · exact (phase.place c' member').congr (notElected c' member') (update_of_ne ne _ _)
    · rcases phase.leaders with none | ⟨c', member', g, place⟩
      · exact .inl none
      · exact absurd place (notElected c' member' g)

theorem Area.base_of_nodes (area : Area b m G Q leader) (mem : b.nodes ∈ m.path) : b.base ∈ m.path := by
  obtain ⟨n, hn⟩ := mem_path_iff.1 mem
  obtain ⟨d, hd, -⟩ := area.tree.parent _ n hn (ne_nil_of_valid area.valid_nodes)
  rw [b.nodes_eq, parentOf_child segment_node.noSlash] at hd
  exact mem_path_iff.2 ⟨d, hd⟩

theorem BarrierInv.nodes_mem (inv : BarrierInv b s r G Q leader) (gen : Text)
    (member : c ∈ b.members) (mine : (s.places c).gen = some gen) : b.nodes ∈ s.master.path := by
  obtain ⟨i, -, hi⟩ := inv.mine c member gen mine
  exact inv.area.mem_nodes (i := i) (by simp [hi])

theorem BarrierInv.run (inv : BarrierInv b s r G Q leader) (member : c ∈ b.members)
    (room : s.pc c = .genNode → 0 ≤ s.master.gen b.nodes)
    (advance : barrierAdvance b s c = some s') :
    ∃ r' G' Q' leader', BarrierInv b s' r' G' Q' leader' := by
  unfold barrierAdvance at advance
  have made := inv.made c member
  cases at_ : s.pc c <;> rw [at_] at advance made <;> cases advance
  case watchReady =>
    rw [inv.area.watch_ready]
    exact ⟨r, G, Q, leader, inv.quiet inv.area (.refl b _) trivial (places_of_pc at_).symm⟩
  case waitNotReady =>
    obtain ⟨value, get, iff⟩ := inv.area.get_ready (c := c)
    simp only [get, BarrierState.ask]
    split
    · rename_i none
      obtain rfl := iff.1 none
      exact ⟨r, G, Q, _, inv.enter (places_of_pc at_)⟩
    · exact ⟨r, G, Q, leader, inv⟩
  case addBase =>
    obtain ⟨m, added, add, area, keeps, mem⟩ := inv.area.add_base (c := c)
    rw [add]
    exact ⟨r, G, Q, leader, inv.quiet area keeps mem (places_of_pc at_).symm⟩
  case addNode =>
    obtain ⟨m, added, add, area, keeps, mem⟩ := inv.area.add_node (c := c) made
    rw [add]
    exact ⟨r, G, Q, leader, inv.quiet area keeps mem (places_of_pc at_).symm⟩
  case genNode =>
    have entering : s.places c = .entering := places_of_pc at_
    obtain rfl := inv.gather_of member (.inl entering)
    obtain ⟨m, gen_eq, area, keeps⟩ := inv.area.draw (c := c) made (room at_)
    simp only [gen_eq, BarrierState.ask, genKey_ne_nil, if_false]
    have small := (inv.area.queue made).lt_of_room (room at_)
    exact ⟨r, _, _, _, inv.draw member entering small area keeps⟩
  case readNodes gen =>
    have inside : s.places c = .inside gen := places_of_pc at_
    have mem := inv.nodes_mem gen member (by rw [inside]; rfl)
    simp only [inv.area.read_nodes mem, BarrierState.ask]
    split
    · rename_i chosen
      rw [List.length_map, Finset.length_sort] at chosen
      have isLast := (inv.area.queue mem).isLast_of_getLast chosen.2
      exact ⟨r, G, Q, leader, (inv.elect member inside chosen.1 isLast).2⟩
    · exact ⟨r, G, Q, leader, inv.quiet inv.area (.refl b _) trivial inside.symm⟩
  case watchNodes gen =>
    rw [inv.area.watch_nodes]
    exact ⟨r, G, Q, leader, inv.quiet inv.area (.refl b _) trivial (places_of_pc at_).symm⟩
  case addReady gen =>
    have elected : s.places c = .elected gen := places_of_pc at_
    have mem := inv.nodes_mem gen member (by rw [elected]; rfl)
    obtain rfl := inv.gather_of member (.inr ⟨gen, elected⟩)
    obtain ⟨m, add, area, keeps⟩ := inv.area.add_ready (c := c) (inv.area.base_of_nodes mem)
    rw [add]
    exact ⟨r, G, Q, _, inv.announce member elected area keeps⟩
  case waitAlone gen =>
    have waiting : s.places c = .waiting gen := places_of_pc at_
    obtain rfl := inv.leader_of_waiting member (.inl ⟨gen, waiting⟩)
    have mem := inv.nodes_mem gen member (by rw [waiting]; rfl)
    simp only [inv.area.read_nodes mem, BarrierState.ask]
    split
    · rename_i one
      rw [List.length_map, Finset.length_sort] at one
      obtain ⟨i, -, hi⟩ := inv.mine c member gen (by rw [waiting]; rfl)
      exact ⟨r, G, Q, _, inv.lead_on (by rw [waiting]; rfl) trivial (inv.alone hi one).update⟩
    · exact ⟨r, G, Q, _, inv⟩
  case delLast gen =>
    have last : s.places c = .last gen := places_of_pc at_
    obtain rfl := inv.leader_of_waiting member (.inr (.inl ⟨gen, last⟩))
    obtain ⟨i, rfl, hi⟩ := inv.mine c member gen (by rw [last]; rfl)
    obtain ⟨m, del, area, keeps⟩ := inv.area.giveBack (c := c) hi
    rw [del]
    exact ⟨r, G, _, _, inv.drop last hi area keeps⟩
  case delReady =>
    have unready : s.places c = .unready := places_of_pc at_
    obtain rfl := inv.leader_of_waiting member (.inr (.inr unready))
    obtain ⟨m, del, area, keeps⟩ := inv.area.del_ready c
    rw [del]
    exact ⟨r + 1, G, Q, none, inv.close unready area keeps⟩
  case waitReady gen =>
    have inside : s.places c = .inside gen := places_of_pc at_
    obtain ⟨value, get, iff⟩ := inv.area.get_ready (c := c)
    simp only [get, BarrierState.ask]
    split
    · exact ⟨r, G, Q, leader, inv⟩
    · rename_i present
      exact ⟨r, G, Q, leader, inv.see member inside fun none => present (iff.2 none)⟩
  case delNode gen =>
    have leaving : s.places c = .leaving gen := places_of_pc at_
    obtain ⟨i, rfl, hi⟩ := inv.mine c member gen (by rw [leaving]; rfl)
    obtain ⟨m, del, area, keeps⟩ := inv.area.giveBack (c := c) hi
    rw [del]
    exact ⟨r, G, _, leader, inv.leave member leaving hi area keeps⟩

theorem BarrierInv.start (segment : Segment b.name) (start : BarrierInit b s) :
    BarrierInv b s 0 0 (fun _ => none) none := by
  obtain ⟨d, hd, persistent, empty⟩ := start.dir
  have absent : b.base ∉ s.master.path := by
    intro mem
    obtain ⟨n, hn⟩ := mem_path_iff.1 mem
    rw [b.base_eq] at hn
    obtain ⟨pit, hp, -, key⟩ := start.tree.parent _ n hn (by simp [child])
    rw [parentOf_child segment.noSlash, hd] at hp
    cases hp
    simp [empty] at key
  have noChild : ∀ key, '/' ∉ key → child b.base key ∉ s.master.path := by
    intro key slash mem
    obtain ⟨n, hn⟩ := mem_path_iff.1 mem
    obtain ⟨pit, hp, -⟩ := start.tree.parent _ n hn (by simp [child])
    rw [parentOf_child slash] at hp
    exact absent (mem_path_iff.2 ⟨pit, hp⟩)
  have nodes : b.nodes ∉ s.master.path := by
    rw [b.nodes_eq]
    exact noChild _ segment_node.noSlash
  have ready : s.master.path.lookup b.ready = none := by
    rw [Finmap.lookup_eq_none, b.ready_eq]
    exact noChild _ segment_ready.noSlash
  have area : Area b s.master 0 (fun _ => none) none :=
    ⟨segment, start.tree, ⟨d, hd, persistent⟩, fun d' hd' => absurd (mem_path_iff.2 ⟨d', hd'⟩) absent,
      fun mem => absurd mem nodes, fun _ => ⟨rfl, fun _ => rfl⟩, by rw [ready]; rfl⟩
  rw [start.start]
  have never {α : Type} {a : α} {p : Prop} (eq : none = some a) : p := by cases eq
  exact ⟨area, fun _ _ => trivial, fun _ _ _ => never, fun _ _ => never, fun _ _ _ => never,
    fun _ _ _ _ _ => never, fun _ _ _ => never, by simp, fun _ _ => rfl, fun _ _ => rfl, fun _ _ => rfl, .inl rfl⟩

theorem BarrierInv.next (inv : BarrierInv b s r G Q leader) (step : BarrierStep b True s s') :
    ∃ r' G' Q' leader', BarrierInv b s' r' G' Q' leader' := by
  cases step with
  | @call c member idle =>
    exact ⟨r, G, Q, leader, inv.quiet inv.area (.refl b _) trivial (places_of_pc idle).symm⟩
  | run member room advance => exact inv.run member (room trivial) advance
  | other c target outside handled =>
    obtain ⟨area, keeps⟩ := inv.area.other target outside handled
    refine ⟨r, G, Q, leader, area, fun c' member' => (inv.made c' member').keeps keeps, inv.mine,
      inv.theirs, inv.logged, inv.distinct, inv.current, inv.past, inv.future, ?_⟩
    cases leader with
    | none =>
      have phase : Gather b s r Q := inv.phase
      exact ⟨phase.returned, phase.place, phase.leaders⟩
    | some L =>
      have phase : Leave b s r Q L := inv.phase
      exact ⟨phase.member, phase.generated, phase.leaders, phase.returned, phase.lead, phase.follow⟩

theorem BarrierReachable.inv (segment : Segment b.name) (reachable : BarrierReachable b True s) :
    ∃ r G Q leader, BarrierInv b s r G Q leader :=
  Reachable.invariant (fun s => ∃ r G Q leader, BarrierInv b s r G Q leader)
    (fun _ start => ⟨_, _, _, _, BarrierInv.start segment start⟩)
    (fun _ _ ⟨_, _, _, _, inv⟩ step => inv.next step) reachable

section
variable (inv : BarrierInv b s r G Q leader)
include inv

theorem BarrierInv.returned_le {c' : ClientId}
    (member : c ∈ b.members) (member' : c' ∈ b.members) : s.returned c ≤ s.generated c' := by
  cases leader with
  | none =>
    have counts := Gather.counts inv.phase member
    have counts' := Gather.counts inv.phase member'
    omega
  | some L =>
    have counts := Leave.counts inv.phase member
    have counts' := Leave.counts inv.phase member'
    omega

theorem BarrierInv.leaders (k : Nat) : (s.leaders k).length ≤ 1 ∧
      ∀ c ∈ b.members, k < s.returned c → ∃ c' ∈ b.members, s.leaders k = [c'] := by
  rcases Nat.lt_trichotomy k r with lt | rfl | gt
  · obtain ⟨c', member', eq⟩ := inv.past k lt
    exact ⟨by simp [eq], fun _ _ _ => ⟨c', member', eq⟩⟩
  · cases leader with
    | none =>
      have phase : Gather b s k Q := inv.phase
      refine ⟨?_, fun c member lt => ?_⟩
      · rcases phase.leaders with none | ⟨c, member, gen, place⟩
        · simp [none]
        · simp [(phase.of_place member place).2.2]
      · have returned := phase.returned c member
        omega
    | some L =>
      have phase : Leave b s k Q L := inv.phase
      exact ⟨by simp [phase.leaders], fun _ _ _ => ⟨L, phase.member, phase.leaders⟩⟩
  · refine ⟨by simp [inv.future k gt], fun c member lt => ?_⟩
    cases leader with
    | none =>
      have counts := Gather.counts inv.phase member
      omega
    | some L =>
      have counts := Leave.counts inv.phase member
      omega

theorem BarrierInv.not_failed (member : c ∈ b.members) : s.pc c ≠ .failed := by
  intro failed
  rcases inv.at_place member (places_of_pc failed) with ⟨-, h⟩ | ⟨-, h⟩ | h <;> exact h

theorem BarrierInv.fresh_round (member : c ∈ b.members)
    (at_ : s.pc c = .genNode) : b.ready ∉ s.master.path ∧
      ∀ c' k gen, k < s.generated c → s.node c' k = some gen → child b.nodes gen ∉ s.master.path := by
  have entering : s.places c = .entering := places_of_pc at_
  obtain rfl := inv.gather_of member (.inl entering)
  have generated : s.generated c = r := Gather.of_place inv.phase member entering
  refine ⟨inv.area.ready_none, fun c' k gen lt logged mem => ?_⟩
  obtain ⟨i, small, rfl⟩ := inv.logged c' k gen logged
  have made := inv.made c member
  rw [at_] at made
  have queue := inv.area.queue made
  have present := (queue.mem_iff inv.area.tree (small.trans_le queue.counts.le)).1 mem
  obtain ⟨c'', hc⟩ := Option.ne_none_iff_exists'.1 present
  obtain ⟨member'', gen''⟩ := inv.theirs i c'' hc
  have eq := inv.distinct c' c'' k r _ logged (inv.current c'' member'' _ gen'')
  omega

end

/-- No call returns before everybody generated its node of the same call, every round that anybody
has returned from had one leader, no check fails, and rounds do not overlap. -/
theorem barrier_rounds (segment : Segment b.name) (reachable : BarrierReachable b True s) :
    (∀ c ∈ b.members, ∀ c' ∈ b.members, s.returned c ≤ s.generated c') ∧
    (∀ k, (s.leaders k).length ≤ 1 ∧
      ∀ c ∈ b.members, k < s.returned c → ∃ c' ∈ b.members, s.leaders k = [c']) ∧
    (∀ c ∈ b.members, s.pc c ≠ .failed) ∧
    ∀ c ∈ b.members, s.pc c = .genNode → b.ready ∉ s.master.path ∧
      ∀ c' k gen, k < s.generated c → s.node c' k = some gen → child b.nodes gen ∉ s.master.path := by
  obtain ⟨r, G, Q, leader, inv⟩ := reachable.inv segment
  exact ⟨fun c member c' member' => inv.returned_le member member', inv.leaders,
    fun c member => inv.not_failed member, fun c member => inv.fresh_round member⟩

end Prpc.MasterClient
