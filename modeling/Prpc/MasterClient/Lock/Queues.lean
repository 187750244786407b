import Prpc.MasterClient.Lock.Model

namespace Prpc.MasterClient
open Lib Master

variable {root : RootPath} {m m' : State} {c : ClientId} {G : Text → Nat}
  {Q : Text → Nat → Option ClientId}

structure Queues (root : RootPath) (m : State) (G : Text → Nat)
    (Q : Text → Nat → Option ClientId) : Prop where
  tree : Tree m
  dir : ∃ d, m.path.lookup (root.join pathLock) = some d ∧ d.owner = none
  queue : ∀ name, Segment name → root.join (lockPath name) ∈ m.path →
    Queue m (root.join (lockPath name)) (G name) (Q name)
  absent : ∀ name, Segment name → root.join (lockPath name) ∉ m.path → G name = 0 ∧ ∀ i, Q name i = none

theorem join_lockPath (root : RootPath) (name : Text) :
    root.join (lockPath name) = child (root.join pathLock) name :=
  join_child root pathLock name

theorem lockPath_inj {name name' : Text} :
    root.join (lockPath name) = root.join (lockPath name') ↔ name = name' := by
  rw [join_lockPath, join_lockPath, child_right_inj]

theorem lockPath_valid {name : Text} (segment : Segment name) :
    masterCheckValidPath (root.join (lockPath name)) = true :=
  valid_join_child root segment_pathLock segment

variable {name name' k : Text}

theorem child_lockPath_ne (segment : Segment name') :
    child (root.join (lockPath name)) k ≠ root.join (lockPath name') := by
  rw [join_lockPath, join_lockPath, child_assoc, ne_eq, child_right_inj]
  rintro rfl
  exact segment.noSlash (slash_mem_child name k)

theorem dir_ne_lockPath (root : RootPath) (name : Text) : root.join pathLock ≠ root.join (lockPath name) := by
  rw [join_lockPath]
  exact (child_ne_self _ _).symm

theorem dir_ne_child (root : RootPath) (name k : Text) :
    root.join pathLock ≠ child (root.join (lockPath name)) k := by
  rw [join_lockPath, child_assoc]
  exact (child_ne_self _ _).symm

theorem Queue.otherLock {g : Nat} {q : Nat → Option ClientId}
    (queue : Queue m (root.join (lockPath name')) g q) (segment : Segment name)
    (segment' : Segment name') (slash : '/' ∉ k) (ne : name' ≠ name)
    (same : SameExcept {root.join (lockPath name), child (root.join (lockPath name)) k} m m') :
    Queue m' (root.join (lockPath name')) g q := by
  refine queue.sameExcept same ?_ fun i => ?_
  · simp only [Set.mem_insert_iff, Set.mem_singleton_iff, not_or]
    exact ⟨fun eq => ne (lockPath_inj.1 eq), (child_lockPath_ne segment').symm⟩
  · simp only [Set.mem_insert_iff, Set.mem_singleton_iff, not_or]
    refine ⟨child_lockPath_ne segment, fun eq => ?_⟩
    rw [child_inj (slash_notMem_genKey _) slash] at eq
    exact ne (lockPath_inj.1 eq.1)

theorem lockPath_mem_of_same
    (same : SameExcept {root.join (lockPath name), child (root.join (lockPath name)) k} m m')
    (segment' : Segment name') (ne : name' ≠ name) :
    root.join (lockPath name') ∈ m'.path ↔ root.join (lockPath name') ∈ m.path := by
  rw [mem_path_iff, mem_path_iff, (same _ _).1]
  simp only [Set.mem_insert_iff, Set.mem_singleton_iff, not_or]
  exact ⟨fun eq => ne (lockPath_inj.1 eq), (child_lockPath_ne segment').symm⟩

section
variable (qs : Queues root m G Q)
include qs

theorem Queues.update {name k : Text} (segment : Segment name)
    (slash : '/' ∉ k) {g : Nat} {q : Nat → Option ClientId} (tree : Tree m')
    (queue : Queue m' (root.join (lockPath name)) g q)
    (same : SameExcept {root.join (lockPath name), child (root.join (lockPath name)) k} m m') :
    Queues root m' (Function.update G name g) (Function.update Q name q) := by
  refine ⟨tree, ?_, fun name' segment' mem => ?_, fun name' segment' notMem => ?_⟩
  · rw [(same _ _).1]
    · exact qs.dir
    · simp only [Set.mem_insert_iff, Set.mem_singleton_iff, not_or]
      exact ⟨dir_ne_lockPath root name, dir_ne_child root name k⟩
  · by_cases eq : name' = name
    · subst eq
      simpa using queue
    · rw [Function.update_of_ne eq, Function.update_of_ne eq]
      rw [lockPath_mem_of_same same segment' eq] at mem
      exact (qs.queue name' segment' mem).otherLock segment segment' slash eq same
  · by_cases eq : name' = name
    · subst eq
      obtain ⟨d, hd, -⟩ := queue.node
      exact absurd (mem_path_iff.2 ⟨d, hd⟩) notMem
    · rw [Function.update_of_ne eq, Function.update_of_ne eq]
      rw [lockPath_mem_of_same same segment' eq] at notMem
      exact qs.absent name' segment' notMem

theorem Queues.add {name : Text} (segment : Segment name) :
    ∃ m' added, treeNodeAdd root m c (lockPath name) [] false = (m', some added) ∧
      Queues root m' G Q ∧ root.join (lockPath name) ∈ m'.path ∧
      ∀ p ∈ m.path, p ∈ m'.path := by
  by_cases mem : root.join (lockPath name) ∈ m.path
  · refine ⟨m, false, treeNodeAdd_refused qs.tree (lockPath_valid segment) ?_, qs, mem, fun p hp => hp⟩
    exact fun pit addable => addable.fresh mem
  · obtain ⟨d, hd, persistent⟩ := qs.dir
    have parent : parentOf (root.join (lockPath name)) = root.join pathLock := by
      rw [join_lockPath, parentOf_child segment.noSlash]
    have key : keyOf (root.join (lockPath name)) = name := by
      rw [join_lockPath, keyOf_child segment.noSlash]
    have addable : Addable m (root.join (lockPath name)) d :=
      ⟨lockPath_valid segment, by rw [parent, hd], persistent, mem⟩
    have lookup : ∀ p, (addedNode m c (root.join (lockPath name)) [] false d).path.lookup p =
        if p = root.join pathLock then some { d with sub := insert name d.sub }
        else if p = root.join (lockPath name) then some {} else m.path.lookup p := by
      intro p
      rw [addedNode, lookup_insertNode, child_of_valid addable.valid, parent, key]
      rfl
    have same := addedNode_sameExcept c [] false addable
    rw [parent] at same
    have keeps : ∀ p ∈ m.path, p ∈ (addedNode m c (root.join (lockPath name)) [] false d).path := by
      intro p hp
      rw [mem_path_iff] at hp ⊢
      rw [lookup]
      split
      · exact ⟨_, rfl⟩
      · split
        · exact ⟨_, rfl⟩
        · exact hp
    have fresh := qs.absent name segment mem
    refine ⟨_, true, treeNodeAdd_ok qs.tree addable, ⟨qs.tree.added c [] false addable, ?_, ?_, ?_⟩, ?_, keeps⟩
    · exact ⟨_, (lookup _).trans (if_pos rfl), persistent⟩
    · intro name' segment' mem'
      by_cases eq : name' = name
      · subst eq
        have created := Queue.created qs.tree c [] addable
        rw [fresh.1, show Q name' = fun _ => none from funext fresh.2]
        exact created
      · have ne : root.join (lockPath name') ≠ root.join (lockPath name) := fun h => eq (lockPath_inj.1 h)
        rw [mem_path_iff, lookup, if_neg (dir_ne_lockPath root name').symm, if_neg ne, ← mem_path_iff] at mem'
        refine (qs.queue name' segment' mem').sameExcept same ?_ fun i => ?_
        · simp only [Set.mem_insert_iff, Set.mem_singleton_iff, not_or]
          exact ⟨ne, (dir_ne_lockPath root name').symm⟩
        · simp only [Set.mem_insert_iff, Set.mem_singleton_iff, not_or]
          exact ⟨child_lockPath_ne segment, (dir_ne_child root name' _).symm⟩
    · exact fun name' segment' notMem => qs.absent name' segment' fun h => notMem (keeps _ h)
    · rw [mem_path_iff, lookup, if_neg (dir_ne_lockPath root name).symm, if_pos rfl]
      exact ⟨_, rfl⟩

theorem Queues.other {req : Request} {path : Text} {out : Outcome}
    (target : req.target = some path) (outside : ¬ Below (root.join pathLock) path)
    (handled : handleOp m c [] req = some out) :
    Queues root out.state G Q ∧ SameBelow (root.join pathLock) m out.state := by
  obtain ⟨d, hd, persistent⟩ := qs.dir
  have same := handleOp_sameBelow qs.tree.toTreeInv qs.tree.rooted (.inl (mem_path_iff.2 ⟨d, hd⟩)) target
    outside handled
  have below : ∀ name, Below (root.join pathLock) (root.join (lockPath name)) := fun name =>
    .inr ⟨name, join_lockPath root name⟩
  have mem_iff : ∀ name, root.join (lockPath name) ∈ out.state.path ↔
      root.join (lockPath name) ∈ m.path := fun name => by
    rw [mem_path_iff, mem_path_iff, (same _ (below name)).1]
  refine ⟨⟨qs.tree.of_handleOp ?_ handled, ?_, fun name segment mem => ?_,
    fun name segment notMem => ?_⟩, same⟩
  · rintro rfl
    cases target
  · rw [(same _ (.refl _)).1]
    exact qs.dir
  · exact (qs.queue name segment ((mem_iff name).1 mem)).sameBelow (below name) same
  · exact qs.absent name segment fun h => notMem ((mem_iff name).2 h)

theorem Queues.disconnect {temp : List Text} {notified : List (ClientId × Text)} (collects : Collects m c temp)
    (clear : disconnectClearData m temp = some (m', notified)) :
    Queues root m' G (fun name i => if Q name i = some c then none else Q name i) ∧
      ∀ name, Segment name → root.join (lockPath name) ∈ m.path → root.join (lockPath name) ∈ m'.path := by
  obtain ⟨-, lookups⟩ := disconnectClearData_lookup qs.tree.toTreeInv collects clear
  have mem : ∀ name, Segment name → root.join (lockPath name) ∈ m.path →
      root.join (lockPath name) ∈ m'.path := by
    intro name segment h
    obtain ⟨n, hn, persistent, -⟩ := (qs.queue name segment h).node
    obtain ⟨n', hn', -⟩ := persistent_survives qs.tree collects clear hn persistent
    exact mem_path_iff.2 ⟨n', hn'⟩
  refine ⟨⟨qs.tree.disconnected collects clear, ?_, fun name segment h => ?_,
    fun name segment notMem => ?_⟩, mem⟩
  · obtain ⟨d, hd, persistent⟩ := qs.dir
    obtain ⟨d', hd', persistent', -⟩ := persistent_survives qs.tree collects clear hd persistent
    exact ⟨d', hd', persistent'⟩
  · have old : root.join (lockPath name) ∈ m.path := by
      rw [mem_path_iff] at h ⊢
      obtain ⟨n, hn⟩ := h
      rw [lookups, withoutOwner] at hn
      split at hn
      · cases hn
      · rw [Option.map_eq_some_iff] at hn
        obtain ⟨n', hn', -⟩ := hn
        exact ⟨n', hn'⟩
    exact (qs.queue name segment old).disconnected qs.tree collects clear
  · obtain ⟨zero, none⟩ := qs.absent name segment fun h => notMem (mem name segment h)
    exact ⟨zero, fun i => by simp [none i]⟩

end

end Prpc.MasterClient
