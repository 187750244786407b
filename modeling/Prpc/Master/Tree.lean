import Prpc.Lib.Transition
import Prpc.Master.Model

namespace Prpc.Master
open Lib

theorem noEmptySegment_append (p k : Text) :
    noEmptySegment (p ++ '/' :: k) = (noEmptySegment p && noEmptySegment ('/' :: k)) := by
  induction p with
  | nil => simp [noEmptySegment]
  | cons c p ih =>
    cases p with
    | nil => simp [noEmptySegment]
    | cons d p =>
      rw [List.cons_append, List.cons_append, noEmptySegment, ← List.cons_append, ih,
        noEmptySegment, Bool.and_assoc]

theorem noEmptySegment_of_notMem {k : Text} (h : '/' ∉ k) : noEmptySegment k = true := by
  induction k with
  | nil => rfl
  | cons c k ih =>
    have hc : c ≠ '/' := fun eq => h (by simp [eq])
    cases k with
    | nil => simp [noEmptySegment, hc]
    | cons d k =>
      rw [noEmptySegment, ih (fun mem => h (List.mem_cons_of_mem _ mem))]
      simp [hc]

theorem noEmptySegment_slash {k : Text} (h : '/' ∉ k) : noEmptySegment ('/' :: k) = true ↔ k ≠ [] := by
  cases k with
  | nil => simp [noEmptySegment]
  | cons d k =>
    have hd : d ≠ '/' := fun eq => h (by simp [eq])
    rw [noEmptySegment, noEmptySegment_of_notMem h]
    simp [hd]

theorem valid_child_iff {p k : Text} (h : '/' ∉ k) : masterCheckValidPath (child p k) = true ↔
      (p = [] ∨ masterCheckValidPath p = true) ∧ k ≠ [] := by
  cases p with
  | nil =>
    show ('/' = '/' && noEmptySegment ('/' :: k)) = true ↔ _
    simp [noEmptySegment_slash h]
  | cons c p =>
    show (c = '/' && noEmptySegment ((c :: p) ++ '/' :: k)) = true ↔ _
    rw [noEmptySegment_append]
    simp only [Bool.and_eq_true, noEmptySegment_slash h, masterCheckValidPath]
    simp [and_assoc]

variable {p : Text}

theorem slash_mem_of_valid (valid : masterCheckValidPath p = true) : '/' ∈ p := by
  cases p with
  | nil => cases valid
  | cons c p =>
    simp only [masterCheckValidPath, Bool.and_eq_true, decide_eq_true_eq] at valid
    simp [valid.1]

theorem child_of_valid (valid : masterCheckValidPath p = true) : child (parentOf p) (keyOf p) = p :=
  child_parentOf_keyOf (slash_mem_of_valid valid)

theorem ne_nil_of_valid (valid : masterCheckValidPath p = true) : p ≠ [] := by
  rintro rfl
  cases valid

theorem slash_notMem_genKey (x : Int) : '/' ∉ genKey x := by
  simp [genKey, List.leftpad, slash_notMem_toText]

structure TreeInv (s : State) : Prop where
  valid : ∀ p ∈ s.path, p = [] ∨ masterCheckValidPath p = true
  parent : ∀ p n, s.path.lookup p = some n → p ≠ [] →
    ∃ pit, s.path.lookup (parentOf p) = some pit ∧ pit.owner = none ∧ keyOf p ∈ pit.sub
  children : ∀ p n, s.path.lookup p = some n → ∀ k ∈ n.sub, '/' ∉ k ∧ child p k ∈ s.path
  leaf : ∀ p n, s.path.lookup p = some n → n.owner ≠ none → n.sub = ∅
  root : ∀ n, s.path.lookup [] = some n → n.owner = none
  counted : ∀ p, s.gen p ≠ 0 → ∃ n, s.path.lookup p = some n ∧ n.owner = none

theorem TreeInv.empty : TreeInv .empty where
  valid p h := absurd h Finmap.notMem_empty
  parent p n h := by simp [State.empty] at h
  children p n h := by simp [State.empty] at h
  leaf p n h := by simp [State.empty] at h
  root n h := by simp [State.empty] at h
  counted p h := by simp [State.gen, State.empty] at h

theorem TreeInv.watchers {s : State} (inv : TreeInv s) (watchers : Finset ClientId) :
    TreeInv { s with watchers := watchers } :=
  ⟨inv.valid, inv.parent, inv.children, inv.leaf, inv.root, inv.counted⟩

def insertNode (s : State) (parent key : Text) (pit node : MasterNode) : State :=
  { s with
    path := (s.path.insert (child parent key) node).insert parent
      { pit with sub := insert key pit.sub } }

def removeNode (s : State) (parent key : Text) (pit : MasterNode) : State :=
  { s with
    path := (s.path.erase (child parent key)).insert parent
      { pit with sub := pit.sub.erase key } }

section
variable (s : State) (parent key : Text)
include s parent key

theorem lookup_insertNode (pit node : MasterNode) (p : Text) :
    (insertNode s parent key pit node).path.lookup p =
      if p = parent then some { pit with sub := insert key pit.sub }
      else if p = child parent key then some node
      else s.path.lookup p := by
  unfold insertNode
  by_cases hp : p = parent
  · subst hp
    simp
  · by_cases hc : p = child parent key
    · subst hc
      simp [Finmap.lookup_insert_of_ne _ (child_ne_self parent key), child_ne_self]
    · simp [Finmap.lookup_insert_of_ne _ hp, Finmap.lookup_insert_of_ne _ hc, hp, hc]

theorem lookup_removeNode (pit : MasterNode) (p : Text) : (removeNode s parent key pit).path.lookup p =
      if p = parent then some { pit with sub := pit.sub.erase key }
      else if p = child parent key then none
      else s.path.lookup p := by
  unfold removeNode
  by_cases hp : p = parent
  · subst hp
    simp
  · by_cases hc : p = child parent key
    · subst hc
      simp [Finmap.lookup_insert_of_ne _ (child_ne_self parent key), child_ne_self]
    · simp [Finmap.lookup_insert_of_ne _ hp, Finmap.lookup_erase_ne hc, hp, hc]

@[simp] theorem gen_insertNode (pit node : MasterNode) (p : Text) :
    (insertNode s parent key pit node).gen p = s.gen p := rfl

@[simp] theorem gen_removeNode (pit : MasterNode) (p : Text) :
    (removeNode s parent key pit).gen p = s.gen p := rfl

end

theorem mem_path_iff {s : State} : p ∈ s.path ↔ ∃ n, s.path.lookup p = some n := Finmap.mem_iff

theorem insertNode_keeps {s : State} {parent key p : Text} {pit n : MasterNode} (node : MasterNode)
    (hp : s.path.lookup parent = some pit) (fresh : child parent key ∉ s.path)
    (h : s.path.lookup p = some n) :
    ∃ n', (insertNode s parent key pit node).path.lookup p = some n' ∧
      n'.owner = n.owner ∧ n.sub ⊆ n'.sub := by
  have ne : p ≠ child parent key := by
    rintro rfl
    exact fresh (mem_path_iff.2 ⟨n, h⟩)
  rw [lookup_insertNode]
  by_cases eq : p = parent
  · subst eq
    rw [hp] at h
    cases h
    exact ⟨_, if_pos rfl, rfl, Finset.subset_insert _ _⟩
  · exact ⟨n, by rw [if_neg eq, if_neg ne, h], rfl, Finset.Subset.refl _⟩

theorem TreeInv.insertNode {s : State} (inv : TreeInv s) {parent key : Text} {pit : MasterNode}
    (hp : s.path.lookup parent = some pit) (persistent : pit.owner = none)
    (fresh : child parent key ∉ s.path) (hk : '/' ∉ key) (ne : key ≠ [])
    (owner : Option ClientId) (value : Text) :
    TreeInv (insertNode s parent key pit ⟨owner, value, ∅⟩) where
  valid p mem := by
    obtain ⟨n, hn⟩ := mem_path_iff.1 mem
    rw [lookup_insertNode] at hn
    have hparent := inv.valid parent (mem_path_iff.2 ⟨pit, hp⟩)
    split at hn
    · rename_i eq
      rwa [eq]
    · split at hn
      · rename_i eq
        rw [eq]
        exact .inr ((valid_child_iff hk).2 ⟨hparent, ne⟩)
      · exact inv.valid p (mem_path_iff.2 ⟨n, hn⟩)
  parent p n hn hne := by
    by_cases eq : p = child parent key
    · subst eq
      rw [parentOf_child hk, keyOf_child hk, lookup_insertNode, if_pos rfl]
      exact ⟨_, rfl, persistent, Finset.mem_insert_self _ _⟩
    · obtain ⟨n₀, hn₀⟩ : ∃ n₀, s.path.lookup p = some n₀ := by
        rw [lookup_insertNode] at hn
        split at hn
        · rename_i eq'
          exact ⟨pit, eq' ▸ hp⟩
        · exact ⟨n, by simpa [eq] using hn⟩
      obtain ⟨pit₀, h₀, o₀, k₀⟩ := inv.parent p n₀ hn₀ hne
      obtain ⟨n', h', o', sub'⟩ := insertNode_keeps ⟨owner, value, ∅⟩ hp fresh h₀
      exact ⟨n', h', o'.trans o₀, sub' k₀⟩
  children p n hn k mem := by
    have keeps : ∀ q ∈ s.path, q ∈ (Master.insertNode s parent key pit ⟨owner, value, ∅⟩).path := by
      intro q hq
      obtain ⟨m, hm⟩ := mem_path_iff.1 hq
      obtain ⟨m', hm', -⟩ := insertNode_keeps ⟨owner, value, ∅⟩ hp fresh hm
      exact mem_path_iff.2 ⟨m', hm'⟩
    rw [lookup_insertNode] at hn
    split at hn
    · rename_i eq
      cases hn
      subst eq
      rcases Finset.mem_insert.1 mem with rfl | old
      · refine ⟨hk, mem_path_iff.2 ⟨⟨owner, value, ∅⟩, ?_⟩⟩
        rw [lookup_insertNode, if_neg (child_ne_self _ _), if_pos rfl]
      · obtain ⟨slash, hc⟩ := inv.children p pit hp k old
        exact ⟨slash, keeps _ hc⟩
    · split at hn
      · cases hn
        simp at mem
      · obtain ⟨slash, hc⟩ := inv.children p n hn k mem
        exact ⟨slash, keeps _ hc⟩
  leaf p n hn owned := by
    rw [lookup_insertNode] at hn
    split at hn
    · cases hn
      exact absurd persistent owned
    · split at hn
      · cases hn
        rfl
      · exact inv.leaf p n hn owned
  root n hn := by
    rw [lookup_insertNode] at hn
    split at hn
    · cases hn
      exact persistent
    · split at hn
      · rename_i eq
        have slash := slash_mem_child parent key
        rw [← eq] at slash
        simp at slash
      · exact inv.root n hn
  counted p hg := by
    obtain ⟨n, hn, ho⟩ := inv.counted p hg
    obtain ⟨n', hn', ho', -⟩ := insertNode_keeps ⟨owner, value, ∅⟩ hp fresh hn
    exact ⟨n', hn', ho'.trans ho⟩

theorem removeNode_keeps {s : State} {parent p : Text} (key : Text) {pit n : MasterNode}
    (hp : s.path.lookup parent = some pit) (ne : p ≠ child parent key)
    (h : s.path.lookup p = some n) :
    ∃ n', (removeNode s parent key pit).path.lookup p = some n' ∧ n'.owner = n.owner ∧
      ∀ k ∈ n.sub, child p k ≠ child parent key → k ∈ n'.sub := by
  rw [lookup_removeNode]
  by_cases eq : p = parent
  · subst eq
    rw [hp] at h
    cases h
    refine ⟨_, if_pos rfl, rfl, fun k mem other => ?_⟩
    exact Finset.mem_erase.2 ⟨fun eq => other (by rw [eq]), mem⟩
  · exact ⟨n, by rw [if_neg eq, if_neg ne, h], rfl, fun k mem _ => mem⟩

theorem TreeInv.removeNode {s : State} (inv : TreeInv s) {parent : Text} (key : Text) {pit n : MasterNode}
    (hp : s.path.lookup parent = some pit) (hn : s.path.lookup (child parent key) = some n)
    (hk : '/' ∉ key) (childless : n.sub = ∅) {t : State} (ht : t.path = (removeNode s parent key pit).path)
    (hgen : ∀ p, t.gen p = if p = child parent key then 0 else s.gen p) : TreeInv t := by
  have lookup_t : ∀ p, t.path.lookup p = if p = parent then some { pit with sub := pit.sub.erase key }
      else if p = child parent key then none else s.path.lookup p := by
    intro p
    rw [ht, lookup_removeNode]
  have old : ∀ p m, t.path.lookup p = some m → p ≠ child parent key ∧
      ∃ m₀, s.path.lookup p = some m₀ ∧ m₀.owner = m.owner ∧ m.sub ⊆ m₀.sub := by
    intro p m hm
    rw [lookup_t] at hm
    split at hm
    · rename_i eq
      cases hm
      rw [eq]
      exact ⟨(child_ne_self parent key).symm, pit, hp, rfl, Finset.erase_subset _ _⟩
    · split at hm
      · cases hm
      · rename_i h
        exact ⟨h, m, hm, rfl, Finset.Subset.refl _⟩
  constructor
  · intro p mem
    obtain ⟨m, hm⟩ := mem_path_iff.1 mem
    obtain ⟨-, m₀, hm₀, -⟩ := old p m hm
    exact inv.valid p (mem_path_iff.2 ⟨m₀, hm₀⟩)
  · intro p m hm hne
    obtain ⟨hpc, m₀, hm₀, -⟩ := old p m hm
    obtain ⟨pit₀, h₀, o₀, k₀⟩ := inv.parent p m₀ hm₀ hne
    have split : child (parentOf p) (keyOf p) = p :=
      child_of_valid ((inv.valid p (mem_path_iff.2 ⟨m₀, hm₀⟩)).resolve_left hne)
    -- The removed leaf has no children, so it is not the parent of `p`.
    have ne : parentOf p ≠ child parent key := by
      intro eq
      rw [eq, hn] at h₀
      cases h₀
      simp [childless] at k₀
    obtain ⟨n', h', o', sub'⟩ := removeNode_keeps key hp ne h₀
    exact ⟨n', ht ▸ h', o'.trans o₀, sub' _ k₀ (by rwa [split])⟩
  · intro p m hm k mem
    obtain ⟨-, m₀, hm₀, -, sub₀⟩ := old p m hm
    obtain ⟨slash, hc⟩ := inv.children p m₀ hm₀ k (sub₀ mem)
    refine ⟨slash, ?_⟩
    have ne : child p k ≠ child parent key := by
      intro eq
      obtain ⟨rfl, rfl⟩ := (child_inj slash hk).1 eq
      rw [lookup_t, if_pos rfl] at hm
      cases hm
      simp at mem
    obtain ⟨q, hq⟩ := mem_path_iff.1 hc
    obtain ⟨q', hq', -⟩ := removeNode_keeps key hp ne hq
    exact mem_path_iff.2 ⟨q', ht ▸ hq'⟩
  · intro p m hm owned
    obtain ⟨-, m₀, hm₀, ho, sub₀⟩ := old p m hm
    have := inv.leaf p m₀ hm₀ (ho ▸ owned)
    exact Finset.subset_empty.1 (this ▸ sub₀)
  · intro m hm
    obtain ⟨-, m₀, hm₀, ho, -⟩ := old [] m hm
    exact ho ▸ inv.root m₀ hm₀
  · intro p hg
    rw [hgen] at hg
    split at hg
    · exact absurd rfl hg
    · rename_i ne
      obtain ⟨m, hm, ho⟩ := inv.counted p hg
      obtain ⟨m', hm', ho', -⟩ := removeNode_keeps key hp ne hm
      exact ⟨m', ht ▸ hm', ho'.trans ho⟩

end Prpc.Master
