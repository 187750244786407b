import Prpc.MasterClient.Calls

/-!
Locks, barriers and id generators all keep a persistent node whose children are generated, ephemeral
nodes.
-/

namespace Prpc.MasterClient
open Lib Master
open Function (update update_self update_of_ne)

variable {root : RootPath} {m m' : State} {c : ClientId} {P path : Text} {g : Nat}
  {Q : Nat → Option ClientId}

structure Queue (m : State) (P : Text) (g : Nat) (Q : Nat → Option ClientId) : Prop where
  valid : masterCheckValidPath P = true
  node : ∃ d, m.path.lookup P = some d ∧ d.owner = none ∧ ∀ k, k ∈ d.sub ↔ ∃ i, Q i ≠ none ∧ k = genKey i
  counts : Counts m P g
  bound : ∀ i, Q i ≠ none → i < g
  owner : ∀ i c, Q i = some c → ∃ it, m.path.lookup (child P (genKey i)) = some it ∧ it.owner = some c

def SameExcept (S : Set Text) (m m' : State) : Prop :=
  ∀ p, p ∉ S → m'.path.lookup p = m.path.lookup p ∧ m'.gen p = m.gen p

variable {i : Nat}

theorem Queue.lt_bound (queue : Queue m P g Q) (h : Q i ≠ none) : i < 2 ^ 31 :=
  (queue.bound i h).trans_le queue.counts.le

theorem Queue.key_inj (queue : Queue m P g Q) {i j : Nat} (hi : Q i ≠ none) (hj : j < 2 ^ 31)
    (eq : genKey i = genKey j) : i = j := by
  have := queue.lt_bound hi
  exact genKey_inj (by omega) (by omega) eq

theorem Queue.mem_iff (tree : Tree m) (queue : Queue m P g Q) (small : i < 2 ^ 31) :
    child P (genKey i) ∈ m.path ↔ Q i ≠ none := by
  obtain ⟨d, hd, -, kids⟩ := queue.node
  constructor
  · intro mem
    obtain ⟨n, hn⟩ := mem_path_iff.1 mem
    have slash := slash_notMem_genKey (i : Nat)
    obtain ⟨pit, hp, -, key⟩ := tree.parent _ n hn (by simp [child])
    rw [parentOf_child slash] at hp
    rw [keyOf_child slash] at key
    rw [hd] at hp
    cases hp
    obtain ⟨j, hj, eq⟩ := (kids _).1 key
    rwa [← queue.key_inj hj small eq.symm]
  · intro h
    exact (tree.children P d hd _ ((kids _).2 ⟨i, h, rfl⟩)).2

section
variable (queue : Queue m P g Q)
include queue

theorem Queue.same (hP : m'.path.lookup P = m.path.lookup P)
    (hgen : m'.gen P = m.gen P) (hkids : ∀ i, Q i ≠ none →
      m'.path.lookup (child P (genKey i)) = m.path.lookup (child P (genKey i))) :
    Queue m' P g Q where
  valid := queue.valid
  node := by
    rw [hP]
    exact queue.node
  counts := ⟨hgen ▸ queue.counts.gen, queue.counts.le⟩
  bound := queue.bound
  owner i c h := by
    rw [hkids i (by simp [h])]
    exact queue.owner i c h

theorem Queue.sameBelow {base : Text} (below : Below base P)
    (same : SameBelow base m m') : Queue m' P g Q :=
  queue.same (same P below).1 (same P below).2 fun _ _ => (same _ (below.child _)).1

theorem Queue.sameExcept {S : Set Text} (same : SameExcept S m m')
    (hP : P ∉ S) (hkids : ∀ i : Nat, child P (genKey i) ∉ S) : Queue m' P g Q :=
  queue.same (same P hP).1 (same P hP).2 fun i _ => (same _ (hkids i)).1

theorem Queue.lt_of_room (room : 0 ≤ m.gen P) : g < 2 ^ 31 := by
  rw [queue.counts.gen] at room
  exact nonneg_int32 queue.counts.le room

theorem Queue.gen_eq (room : 0 ≤ m.gen P) : m.gen P = g := by
  rw [queue.counts.gen, int32_of_lt (queue.lt_of_room room)]

end

theorem Queue.fresh (tree : Tree m) (queue : Queue m P g Q) (small : g < 2 ^ 31) :
    child P (genKey (g : Nat)) ∉ m.path := by
  rw [queue.mem_iff tree small]
  intro h
  exact absurd (queue.bound g h) (Nat.lt_irrefl g)

theorem Queue.pushed (queue : Queue m P g Q) (small : g < 2 ^ 31) {d : MasterNode}
    (hd : m.path.lookup P = some d) {value : Text}
    (lookup : ∀ p, m'.path.lookup p = if p = P then some { d with sub := insert (genKey g) d.sub }
      else if p = child P (genKey g) then some ⟨some c, value, ∅⟩ else m.path.lookup p)
    (gen : m'.gen P = int32 (g + 1)) :
    Queue m' P (g + 1) (update Q g (some c)) := by
  obtain ⟨d', hd', persistent, kids⟩ := queue.node
  obtain rfl : d = d' := by
    rw [hd] at hd'
    exact Option.some.inj hd'
  refine ⟨queue.valid, ⟨{ d with sub := insert (genKey g) d.sub }, by rw [lookup, if_pos rfl],
    persistent, fun k => ?_⟩, ⟨gen, by omega⟩, fun i hi => ?_, fun i c' hi => ?_⟩
  · rw [Finset.mem_insert, kids]
    constructor
    · rintro (rfl | ⟨i, hi, rfl⟩)
      · exact ⟨g, by simp, rfl⟩
      · refine ⟨i, ?_, rfl⟩
        rwa [update_of_ne (Nat.ne_of_lt (queue.bound i hi))]
    · rintro ⟨i, hi, rfl⟩
      by_cases eq : i = g
      · exact .inl (by rw [eq])
      · rw [update_of_ne eq] at hi
        exact .inr ⟨i, hi, rfl⟩
  · by_cases eq : i = g
    · omega
    · rw [update_of_ne eq] at hi
      exact (queue.bound i hi).trans (Nat.lt_succ_self g)
  · by_cases eq : i = g
    · subst eq
      rw [update_self] at hi
      cases hi
      exact ⟨⟨some c, value, ∅⟩, by rw [lookup, if_neg (child_ne_self _ _), if_pos rfl], rfl⟩
    · rw [update_of_ne eq] at hi
      obtain ⟨it, hit, ho⟩ := queue.owner i c' hi
      refine ⟨it, ?_, ho⟩
      rw [lookup, if_neg (child_ne_self _ _), if_neg, hit]
      rw [child_right_inj]
      exact fun same => eq (queue.key_inj (by simp [hi]) small same)

theorem Queue.draw (tree : Tree m) (queue : Queue m (root.join path) g Q)
    (room : 0 ≤ m.gen (root.join path)) :
    ∃ m', treeNodeGen root m c path [] true = (m', some (genKey g)) ∧ Tree m' ∧
      Queue m' (root.join path) (g + 1) (update Q g (some c)) ∧
      SameExcept {root.join path, child (root.join path) (genKey g)} m m' := by
  obtain ⟨d, hd, persistent, -⟩ := queue.node
  have small := queue.lt_of_room room
  have gen_eq := queue.gen_eq room
  have fresh := queue.fresh tree small
  have generable : Generable m (root.join path) d := ⟨queue.valid, hd, persistent⟩
  set m' := generatedNode m c (root.join path) [] true d with hm'
  have inv' : TreeInv m' := tree.toTreeInv.generated c [] true generable (by rwa [gen_eq])
  have lookup : ∀ p, m'.path.lookup p =
      if p = root.join path then some { d with sub := insert (genKey g) d.sub }
      else if p = child (root.join path) (genKey g) then some ⟨some c, [], ∅⟩
      else m.path.lookup p := by
    intro p
    rw [hm', generatedNode, lookup_insertNode, gen_eq]
    rfl
  have gen : ∀ p, m'.gen p = if p = root.join path then int32 (g + 1) else m.gen p := by
    intro p
    rw [hm', generatedNode, gen_insertNode, gen_bumpGen, gen_eq]
  refine ⟨m', treeNodeGen_ok tree generable gen_eq small fresh,
    .of_lookup inv' ((lookup (root.join path)).trans (if_pos rfl)),
    queue.pushed small hd lookup (by rw [gen, if_pos rfl]), fun p hp => ?_⟩
  · simp only [Set.mem_insert_iff, Set.mem_singleton_iff, not_or] at hp
    exact ⟨by rw [lookup, if_neg hp.1, if_neg hp.2], by rw [gen, if_neg hp.1]⟩

theorem Queue.leaf (tree : Tree m) (queue : Queue m P g Q) (h : Q i = some c) :
    ∃ it, Deletable m (child P (genKey i)) it := by
  obtain ⟨it, hit, ho⟩ := queue.owner i c h
  exact ⟨it, valid_child_of_segment (.inr queue.valid) (segment_genKey _), hit,
    tree.leaf _ it hit (by simp [ho])⟩

theorem Queue.popped (queue : Queue m P g Q) (h : Q i ≠ none) {d : MasterNode}
    (hd : m.path.lookup P = some d)
    (lookup : ∀ p, m'.path.lookup p = if p = P then some { d with sub := d.sub.erase (genKey i) }
      else if p = child P (genKey i) then none else m.path.lookup p)
    (gen : m'.gen P = m.gen P) : Queue m' P g (update Q i none) := by
  obtain ⟨d', hd', persistent, kids⟩ := queue.node
  obtain rfl : d = d' := by
    rw [hd] at hd'
    exact Option.some.inj hd'
  have other : ∀ j, update Q i none j ≠ none → j ≠ i ∧ Q j ≠ none := by
    intro j hj
    by_cases eq : j = i
    · subst eq
      simp at hj
    · rw [update_of_ne eq] at hj
      exact ⟨eq, hj⟩
  have inj : ∀ j : Nat, Q j ≠ none → genKey j = genKey i → j = i :=
    fun j hj => queue.key_inj hj (queue.lt_bound h)
  refine ⟨queue.valid, ⟨{ d with sub := d.sub.erase (genKey i) }, by rw [lookup, if_pos rfl],
    persistent, fun k => ?_⟩, ⟨gen ▸ queue.counts.gen, queue.counts.le⟩, fun j hj => ?_,
    fun j c' hj => ?_⟩
  · rw [Finset.mem_erase, kids]
    constructor
    · rintro ⟨ne, j, hj, rfl⟩
      refine ⟨j, ?_, rfl⟩
      rwa [update_of_ne (fun eq => ne (by rw [eq]))]
    · rintro ⟨j, hj, rfl⟩
      obtain ⟨ne, hj⟩ := other j hj
      exact ⟨fun same => ne (inj j hj same), j, hj, rfl⟩
  · exact queue.bound j (other j hj).2
  · obtain ⟨ne, present⟩ := other j (by simp [hj])
    rw [update_of_ne ne] at hj
    obtain ⟨it, hit, ho⟩ := queue.owner j c' hj
    refine ⟨it, ?_, ho⟩
    rw [lookup, if_neg (child_ne_self _ _), if_neg, hit]
    rw [child_right_inj]
    exact fun same => ne (inj j present same)

theorem Queue.giveBack (tree : Tree m) (queue : Queue m (root.join path) g Q)
    {owner : ClientId} (h : Q i = some owner) :
    ∃ m', treeNodeDel root m c (child path (genKey i)) = (m', some true) ∧ Tree m' ∧
      Queue m' (root.join path) g (update Q i none) ∧
      SameExcept {root.join path, child (root.join path) (genKey i)} m m' := by
  obtain ⟨it, deletable⟩ := queue.leaf tree h
  have slash := slash_notMem_genKey (i : Nat)
  obtain ⟨d, hd, -, del⟩ := treeNodeDel_ok (c := c) tree (join_child root path _ ▸ deletable)
  rw [join_child] at del hd
  rw [parentOf_child slash] at hd
  set p₀ := child (root.join path) (genKey i) with hp₀
  set m' := deletedNode m p₀ d with hm'
  have inv' : TreeInv m' := tree.toTreeInv.deleted deletable (by rw [hp₀, parentOf_child slash, hd])
  have lookup : ∀ p, m'.path.lookup p =
      if p = root.join path then some { d with sub := d.sub.erase (genKey i) }
      else if p = p₀ then none else m.path.lookup p := by
    intro p
    show (removeNode m (parentOf p₀) (keyOf p₀) d).path.lookup p = _
    rw [lookup_removeNode, hp₀, parentOf_child slash, keyOf_child slash]
  have gen : ∀ p, m'.gen p = if p = p₀ then 0 else m.gen p := gen_deletedNode m p₀ d
  refine ⟨m', del, .of_lookup inv' ((lookup (root.join path)).trans (if_pos rfl)),
    queue.popped (by simp [h]) hd lookup ?_, fun p hp => ?_⟩
  · rw [gen, if_neg (child_ne_self _ _).symm]
  · simp only [Set.mem_insert_iff, Set.mem_singleton_iff, not_or] at hp
    exact ⟨by rw [lookup, if_neg hp.1, if_neg hp.2], by rw [gen, if_neg hp.2]⟩

variable {pit : MasterNode}

theorem Queue.created (tree : Tree m) (c : ClientId) (value : Text)
    (addable : Addable m P pit) :
    Queue (addedNode m c P value false pit) P 0 fun _ => none := by
  have split := child_of_valid addable.valid
  have ne : P ≠ parentOf P := fun eq => child_ne_self (parentOf P) (keyOf P) (split.trans eq)
  refine ⟨addable.valid, ⟨⟨none, value, ∅⟩, ?_, rfl, by simp⟩, ⟨?_, by omega⟩, by simp, by simp⟩
  · rw [addedNode, lookup_insertNode, if_neg ne, if_pos split.symm]
    rfl
  · rw [addedNode, gen_insertNode]
    by_contra nonzero
    obtain ⟨n, hn, -⟩ := tree.counted P nonzero
    exact addable.fresh (mem_path_iff.2 ⟨n, hn⟩)

theorem addedNode_sameExcept (c : ClientId) (value : Text) (ephemeral : Bool)
    (addable : Addable m P pit) :
    SameExcept {P, parentOf P} m (addedNode m c P value ephemeral pit) := by
  intro p hp
  simp only [Set.mem_insert_iff, Set.mem_singleton_iff, not_or] at hp
  rw [addedNode, lookup_insertNode, gen_insertNode, child_of_valid addable.valid, if_neg hp.2, if_neg hp.1]
  exact ⟨rfl, rfl⟩

theorem Tree.added (tree : Tree m) (c : ClientId) (value : Text) (ephemeral : Bool) (addable : Addable m P pit) :
    Tree (addedNode m c P value ephemeral pit) := by
  have inv := tree.toTreeInv.added c value ephemeral addable
  have parent : (addedNode m c P value ephemeral pit).path.lookup (parentOf P) =
      some { pit with sub := insert (keyOf P) pit.sub } := by
    rw [addedNode, lookup_insertNode, if_pos rfl]
  exact .of_lookup inv parent

theorem lookup_addedNode_child (m : State) (c : ClientId) (p : Text) {key : Text} (value : Text)
    (ephemeral : Bool) (pit : MasterNode) (slash : '/' ∉ key) (q : Text) :
    (addedNode m c (child p key) value ephemeral pit).path.lookup q =
      if q = p then some { pit with sub := insert key pit.sub }
      else if q = child p key then some ⟨ownerOf c ephemeral, value, ∅⟩
      else m.path.lookup q := by
  rw [addedNode, parentOf_child slash, keyOf_child slash, lookup_insertNode]

section
variable (tree : Tree m)
include tree

theorem addable_child {p key : Text} (segment : Segment key)
    (node : m.path.lookup p = some pit) (persistent : pit.owner = none) (fresh : key ∉ pit.sub) :
    Addable m (child p key) pit := by
  have valid := valid_child_of_segment (tree.valid p (mem_path_iff.2 ⟨pit, node⟩)) segment
  refine ⟨valid, by rw [parentOf_child segment.noSlash, node], persistent, fun mem => ?_⟩
  obtain ⟨n, hn⟩ := mem_path_iff.1 mem
  obtain ⟨pit', hp, -, key'⟩ := tree.parent _ n hn (ne_nil_of_valid valid)
  rw [parentOf_child segment.noSlash, node] at hp
  cases hp
  rw [keyOf_child segment.noSlash] at key'
  exact fresh key'

theorem treeNodeAdd_child (c : ClientId) {dir key : Text} (value : Text)
    (ephemeral : Bool) (segment : Segment key)
    (node : m.path.lookup (root.join dir) = some pit) (persistent : pit.owner = none) :
    root.join (child dir key) ∈ m.path ∧
        treeNodeAdd root m c (child dir key) value ephemeral = (m, some false) ∨
      Addable m (root.join (child dir key)) pit ∧ treeNodeAdd root m c (child dir key) value ephemeral =
          (addedNode m c (root.join (child dir key)) value ephemeral pit, some true) := by
  by_cases mem : root.join (child dir key) ∈ m.path
  · left
    refine ⟨mem, treeNodeAdd_refused tree ?_ fun pit addable => addable.fresh mem⟩
    obtain ⟨n, hn⟩ := mem_path_iff.1 mem
    exact (tree.valid _ mem).resolve_left (by simp [RootPath.join, child])
  · right
    have addable : Addable m (root.join (child dir key)) pit := by
      rw [join_child] at mem ⊢
      apply addable_child tree segment node persistent
      intro key_mem
      exact mem (tree.children _ _ node _ key_mem).2
    exact ⟨addable, treeNodeAdd_ok tree addable⟩

variable {temp : List Text} {notified : List (ClientId × Text)}

theorem Tree.disconnected (collects : Collects m c temp)
    (clear : disconnectClearData m temp = some (m', notified)) : Tree m' := by
  obtain ⟨t, n, clear', inv, rooted, -⟩ := disconnectClearData_ok tree.toTreeInv collects
  rw [clear] at clear'
  cases clear'
  exact ⟨inv, rooted tree.rooted⟩

theorem persistent_survives (collects : Collects m c temp)
    (clear : disconnectClearData m temp = some (m', notified)) {n : MasterNode}
    (hn : m.path.lookup P = some n) (persistent : n.owner = none) :
    ∃ n', m'.path.lookup P = some n' ∧ n'.owner = none ∧ n'.value = n.value := by
  obtain ⟨-, lookups⟩ := disconnectClearData_lookup tree.toTreeInv collects clear
  have notOwned : P ∉ ownedPaths m c := by
    rw [mem_ownedPaths]
    rintro ⟨n', hn', ho⟩
    rw [hn] at hn'
    cases hn'
    rw [persistent] at ho
    cases ho
  refine ⟨{ n with sub := n.sub.filter (child P · ∉ ownedPaths m c) }, ?_, persistent, rfl⟩
  rw [lookups, withoutOwner, if_neg notOwned, hn, Option.map_some]

theorem Queue.disconnected (queue : Queue m P g Q)
    (collects : Collects m c temp)
    (clear : disconnectClearData m temp = some (m', notified)) :
    Queue m' P g fun i => if Q i = some c then none else Q i := by
  obtain ⟨gens, lookups⟩ := disconnectClearData_lookup tree.toTreeInv collects clear
  obtain ⟨d, hd, persistent, kids⟩ := queue.node
  have notOwned : P ∉ ownedPaths m c := by
    rw [mem_ownedPaths]
    rintro ⟨n, hn, ho⟩
    rw [hd] at hn
    cases hn
    simp [persistent] at ho
  have owned : ∀ i, Q i ≠ none → (child P (genKey i) ∈ ownedPaths m c ↔ Q i = some c) := by
    intro i hi
    obtain ⟨c', hc'⟩ := Option.ne_none_iff_exists'.1 hi
    obtain ⟨it, hit, ho⟩ := queue.owner i c' hc'
    simp [mem_ownedPaths, hit, ho, hc']
  have present : ∀ i, (if Q i = some c then none else Q i) ≠ none ↔ Q i ≠ none ∧ Q i ≠ some c := by
    intro i
    by_cases eq : Q i = some c <;> simp [eq]
  refine ⟨queue.valid, ⟨{ d with sub := d.sub.filter (child P · ∉ ownedPaths m c) }, ?_, persistent,
    fun k => ?_⟩, ⟨by rw [gens]; exact queue.counts.gen, queue.counts.le⟩, fun i hi => ?_,
    fun i c' hi => ?_⟩
  · rw [lookups, withoutOwner, if_neg notOwned, hd]
    rfl
  · simp only [Finset.mem_filter, kids, present]
    constructor
    · rintro ⟨⟨i, hi, rfl⟩, free⟩
      exact ⟨i, ⟨hi, fun eq => free ((owned i hi).2 eq)⟩, rfl⟩
    · rintro ⟨i, ⟨hi, other⟩, rfl⟩
      exact ⟨⟨i, hi, rfl⟩, fun mem => other ((owned i hi).1 mem)⟩
  · exact queue.bound i ((present i).1 hi).1
  · obtain ⟨hq, other⟩ := (present i).1 (by simp [hi])
    rw [if_neg other] at hi
    obtain ⟨it, hit, ho⟩ := queue.owner i c' hi
    refine ⟨{ it with sub := it.sub.filter (child (child P (genKey i)) · ∉ ownedPaths m c) }, ?_, ho⟩
    rw [lookups, withoutOwner, if_neg fun mem => other ((owned i hq).1 mem), hit]
    rfl

end

def tickets (g : Nat) (Q : Nat → Option ClientId) : Finset Nat := (Finset.range g).filter fun i => Q i ≠ none

theorem Queue.mem_tickets (queue : Queue m P g Q) : i ∈ tickets g Q ↔ Q i ≠ none := by
  simp only [tickets, Finset.mem_filter, Finset.mem_range, and_iff_right_iff_imp]
  exact queue.bound i

theorem Queue.children_sorted (queue : Queue m P g Q) :
    ((tickets g Q).sort.map fun i : Nat => genKey i).SortedLT := by
  refine List.Pairwise.sortedLT (List.pairwise_map.2 ?_)
  refine (Finset.sortedLT_sort (tickets g Q)).pairwise.imp_of_mem fun {i j} _ hj lt => ?_
  have := queue.lt_bound (queue.mem_tickets.1 ((Finset.mem_sort _).1 hj))
  exact genKey_lt lt (by omega)

theorem Queue.children (tree : Tree m) (queue : Queue m (root.join path) g Q) : treeNodeSub root m c path =
      (m, some (some ((tickets g Q).sort.map fun i : Nat => genKey i))) := by
  obtain ⟨d, hd, -, kids⟩ := queue.node
  rw [treeNodeSub_eq tree queue.valid, hd, Option.map_some]
  refine congrArg (fun l => (m, some (some l))) ?_
  refine (Finset.sortedLT_sort d.sub).eq_of_mem_iff queue.children_sorted fun k => ?_
  simp only [Finset.mem_sort, kids, List.mem_map, queue.mem_tickets]
  exact ⟨fun ⟨i, hi, eq⟩ => ⟨i, hi, eq.symm⟩, fun ⟨i, hi, eq⟩ => ⟨i, hi, eq.symm⟩⟩

end Prpc.MasterClient
