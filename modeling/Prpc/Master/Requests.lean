import Prpc.Master.Tree

namespace Prpc.Master
open Lib

variable {s : State} {c : ClientId}

structure Addable (s : State) (path : Text) (pit : MasterNode) : Prop where
  valid : masterCheckValidPath path = true
  parent : s.path.lookup (parentOf path) = some pit
  persistent : pit.owner = none
  fresh : path ∉ s.path

variable {path : Text} {pit : MasterNode}

theorem keyOf_notMem_sub (inv : TreeInv s)
    (h : s.path.lookup (parentOf path) = some pit) (slash : '/' ∈ path) (fresh : path ∉ s.path) :
    keyOf path ∉ pit.sub := by
  intro mem
  have := (inv.children _ _ h _ mem).2
  rw [child_parentOf_keyOf slash] at this
  exact fresh this

def addedNode (s : State) (c : ClientId) (path value : Text) (ephemeral : Bool) (pit : MasterNode) : State :=
  insertNode s (parentOf path) (keyOf path) pit ⟨ownerOf c ephemeral, value, ∅⟩

theorem masterAdd_ok (inv : TreeInv s) {path value : Text} {ephemeral : Bool}
    (h : Addable s path pit) :
    masterAdd s c path value ephemeral =
      some { state := addedNode s c path value ephemeral pit, resp := .status .OK,
             notified := notifyWatchers s path } := by
  have key : keyOf path ∉ pit.sub := keyOf_notMem_sub inv h.parent (slash_mem_of_valid h.valid) h.fresh
  simp only [masterAdd, h.valid, h.parent, h.persistent, h.fresh, key, addedNode, insertNode,
    child_of_valid h.valid, notifyWatchers]
  simp

theorem masterAdd_refused (c : ClientId) (value : Text) (ephemeral : Bool)
    (h : ∀ pit, ¬ Addable s path pit) :
    ∃ code, code ≠ .OK ∧ (masterCheckValidPath path = true → code ≠ .ERROR) ∧
      masterAdd s c path value ephemeral = some { state := s, resp := .status code } := by
  unfold masterAdd
  by_cases valid : masterCheckValidPath path = true
  · cases hp : s.path.lookup (parentOf path) with
    | none => exact ⟨.PATH_FAILED, by decide, fun _ => by decide, by simp [valid, hp]⟩
    | some pit =>
      by_cases owned : pit.owner = none
      · by_cases mem : path ∈ s.path
        · exact ⟨.NODE_FAILED, by decide, fun _ => by decide, by simp [valid, hp, owned, mem]⟩
        · exact absurd ⟨valid, hp, owned, mem⟩ (h pit)
      · exact ⟨.PATH_FAILED, by decide, fun _ => by decide, by simp [valid, hp, owned]⟩
  · exact ⟨.ERROR, by decide, fun h => absurd h valid, by simp [valid]⟩

theorem TreeInv.added (inv : TreeInv s) (c : ClientId) (value : Text) (ephemeral : Bool) (h : Addable s path pit) : TreeInv (addedNode s c path value ephemeral pit) := by
  have split := child_of_valid h.valid
  refine inv.insertNode h.parent h.persistent (by rw [split]; exact h.fresh)
    (slash_notMem_keyOf path) ?_ _ _
  have valid := h.valid
  rw [← split, valid_child_iff (slash_notMem_keyOf path)] at valid
  exact valid.2

def bumpGen (s : State) (parent : Text) : State :=
  { s with genId := s.genId.insert parent (int32 (s.gen parent + 1)) }

theorem gen_bumpGen (s : State) (parent p : Text) :
    (bumpGen s parent).gen p = if p = parent then int32 (s.gen parent + 1) else s.gen p := by
  unfold bumpGen State.gen
  by_cases eq : p = parent
  · subst eq
    simp
  · simp [Finmap.lookup_insert_of_ne _ eq, eq]

variable {parent : Text}

theorem TreeInv.bumped (inv : TreeInv s)
    (h : s.path.lookup parent = some pit) (persistent : pit.owner = none) :
    TreeInv (bumpGen s parent) where
  valid := inv.valid
  parent := inv.parent
  children := inv.children
  leaf := inv.leaf
  root := inv.root
  counted p hg := by
    rw [gen_bumpGen] at hg
    split at hg
    · rename_i eq
      exact ⟨pit, eq ▸ h, persistent⟩
    · exact inv.counted p hg

structure Generable (s : State) (parent : Text) (pit : MasterNode) : Prop where
  valid : masterCheckValidPath parent = true
  parent : s.path.lookup parent = some pit
  persistent : pit.owner = none

def generatedNode (s : State) (c : ClientId) (parent value : Text) (ephemeral : Bool)
    (pit : MasterNode) : State :=
  insertNode (bumpGen s parent) parent (genKey (s.gen parent)) pit ⟨ownerOf c ephemeral, value, ∅⟩

theorem masterGen_ok (inv : TreeInv s) {parent value : Text} {ephemeral : Bool}
    (h : Generable s parent pit) (short : (genKey (s.gen parent)).length ≤ 11)
    (fresh : child parent (genKey (s.gen parent)) ∉ s.path) :
    masterGen s c parent value ephemeral =
      some { state := generatedNode s c parent value ephemeral pit,
             resp := .key (genKey (s.gen parent)),
             notified := notifyWatchers s (child parent (genKey (s.gen parent))) } := by
  have key : genKey (s.gen parent) ∉ pit.sub := fun mem =>
    fresh (inv.children _ _ h.parent _ mem).2
  simp only [masterGen, h.valid, h.parent, h.persistent, key, fresh, generatedNode, insertNode,
    bumpGen, notifyWatchers, gt_iff_lt, Nat.not_lt.2 short]
  simp

theorem masterGen_refused (c : ClientId) (value : Text) (ephemeral : Bool)
    (h : ¬ ∃ pit, Generable s parent pit ∧ (genKey (s.gen parent)).length ≤ 11 ∧
      child parent (genKey (s.gen parent)) ∉ s.path) :
    ∃ code t, code ≠ .OK ∧ (t = s ∨ t = bumpGen s parent ∧ ∃ pit, Generable s parent pit) ∧
      masterGen s c parent value ephemeral = some { state := t, resp := .status code } := by
  unfold masterGen
  by_cases valid : masterCheckValidPath parent = true
  · cases hp : s.path.lookup parent with
    | none => exact ⟨.NODE_FAILED, s, by decide, .inl rfl, by simp [valid]⟩
    | some pit =>
      by_cases owned : pit.owner = none
      · have generable : Generable s parent pit := ⟨valid, hp, owned⟩
        by_cases long : 11 < (genKey (s.gen parent)).length
        · exact ⟨.ERROR, bumpGen s parent, by decide, .inr ⟨rfl, pit, generable⟩, by
            simp [valid, owned, long, bumpGen]⟩
        · have mem : child parent (genKey (s.gen parent)) ∈ s.path := by
            by_contra fresh
            exact h ⟨pit, generable, Nat.not_lt.1 long, fresh⟩
          exact ⟨.PATH_FAILED, bumpGen s parent, by decide, .inr ⟨rfl, pit, generable⟩, by
            simp [valid, owned, long, mem, bumpGen]⟩
      · exact ⟨.NODE_FAILED, s, by decide, .inl rfl, by simp [valid, owned]⟩
  · exact ⟨.ERROR, s, by decide, .inl rfl, by simp [valid]⟩

theorem TreeInv.generated (inv : TreeInv s) (c : ClientId) (value : Text) (ephemeral : Bool) (h : Generable s parent pit)
    (fresh : child parent (genKey (s.gen parent)) ∉ s.path) :
    TreeInv (generatedNode s c parent value ephemeral pit) :=
  (inv.bumped h.parent h.persistent).insertNode h.parent h.persistent fresh
    (slash_notMem_genKey _) (by simp [genKey]) _ _

structure Deletable (s : State) (path : Text) (it : MasterNode) : Prop where
  valid : masterCheckValidPath path = true
  node : s.path.lookup path = some it
  childless : it.sub = ∅

def deletedNode (s : State) (path : Text) (pit : MasterNode) : State :=
  { removeNode s (parentOf path) (keyOf path) pit with genId := s.genId.erase path }

theorem gen_deletedNode (s : State) (path : Text) (pit : MasterNode) (p : Text) :
    (deletedNode s path pit).gen p = if p = path then 0 else s.gen p := by
  unfold deletedNode State.gen
  by_cases eq : p = path
  · subst eq
    simp
  · simp [Finmap.lookup_erase_ne eq, eq]

variable {it : MasterNode}

theorem masterDel_ok (inv : TreeInv s) (h : Deletable s path it) :
    ∃ pit, s.path.lookup (parentOf path) = some pit ∧ pit.owner = none ∧
      masterDel s path = some { state := deletedNode s path pit, resp := .status .OK,
                                notified := notifyWatchers s path } := by
  obtain ⟨pit, hp, owner, key⟩ := inv.parent path it h.node (ne_nil_of_valid h.valid)
  have split := child_of_valid h.valid
  have ne : parentOf path ≠ path := fun eq => child_ne_self (parentOf path) (keyOf path)
    (split.trans eq.symm)
  refine ⟨pit, hp, owner, ?_⟩
  simp only [masterDel, h.valid, h.node, h.childless, Finmap.lookup_erase_ne ne, hp, key,
    deletedNode, removeNode, split, notifyWatchers]
  simp

theorem masterDel_refused (h : ∀ it, ¬ Deletable s path it) :
    ∃ code, code ≠ .OK ∧ (masterCheckValidPath path = true → code ≠ .ERROR) ∧
      masterDel s path = some { state := s, resp := .status code } := by
  unfold masterDel
  by_cases valid : masterCheckValidPath path = true
  · cases hn : s.path.lookup path with
    | none => exact ⟨.NODE_FAILED, by decide, fun _ => by decide, by simp [valid]⟩
    | some it =>
      by_cases childless : it.sub = ∅
      · exact absurd ⟨valid, hn, childless⟩ (h it)
      · exact ⟨.PATH_FAILED, by decide, fun _ => by decide, by simp [valid, childless]⟩
  · exact ⟨.ERROR, by decide, fun h => absurd h valid, by simp [valid]⟩

theorem TreeInv.deleted (inv : TreeInv s) {it pit : MasterNode}
    (h : Deletable s path it) (hp : s.path.lookup (parentOf path) = some pit) :
    TreeInv (deletedNode s path pit) := by
  have split := child_of_valid h.valid
  refine inv.removeNode (keyOf path) hp (by rw [split]; exact h.node)
    (slash_notMem_keyOf path) h.childless rfl fun p => ?_
  rw [gen_deletedNode, split]

theorem masterSet_ok {path value : Text}
    (valid : masterCheckValidPath path = true) (h : s.path.lookup path = some it) :
    masterSet s path value =
      some { state := { s with path := s.path.insert path { it with value := value } },
             resp := .status .OK, notified := notifyWatchers s path } := by
  simp [masterSet, valid, h, notifyWatchers]

theorem masterSet_refused (value : Text)
    (h : masterCheckValidPath path = false ∨ s.path.lookup path = none) :
    ∃ code, code ≠ .OK ∧ masterSet s path value = some { state := s, resp := .status code } := by
  unfold masterSet
  by_cases valid : masterCheckValidPath path = true
  · have hn := h.resolve_left (by simp [valid])
    exact ⟨.NODE_FAILED, by decide, by simp [valid, hn]⟩
  · exact ⟨.ERROR, by decide, by simp [valid]⟩

theorem TreeInv.set (inv : TreeInv s) (value : Text)
    (h : s.path.lookup path = some it) :
    TreeInv { s with path := s.path.insert path { it with value := value } } := by
  have lookup_eq : ∀ p, (s.path.insert path { it with value := value }).lookup p =
      if p = path then some { it with value := value } else s.path.lookup p := by
    intro p
    by_cases eq : p = path
    · subst eq
      simp
    · simp [Finmap.lookup_insert_of_ne _ eq, eq]
  have old : ∀ p n, (s.path.insert path { it with value := value }).lookup p = some n →
      ∃ m, s.path.lookup p = some m ∧ m.owner = n.owner ∧ m.sub = n.sub := by
    intro p n hn
    rw [lookup_eq] at hn
    split at hn
    · rename_i eq
      cases hn
      exact ⟨it, eq ▸ h, rfl, rfl⟩
    · exact ⟨n, hn, rfl, rfl⟩
  have new : ∀ p m, s.path.lookup p = some m →
      ∃ n, (s.path.insert path { it with value := value }).lookup p = some n ∧
        n.owner = m.owner ∧ n.sub = m.sub := by
    intro p m hm
    rw [lookup_eq]
    by_cases eq : p = path
    · subst eq
      rw [h] at hm
      cases hm
      exact ⟨_, if_pos rfl, rfl, rfl⟩
    · exact ⟨m, by rw [if_neg eq, hm], rfl, rfl⟩
  constructor
  · intro p mem
    obtain ⟨n, hn⟩ := Finmap.mem_iff.1 mem
    obtain ⟨m, hm, -⟩ := old p n hn
    exact inv.valid p (mem_path_iff.2 ⟨m, hm⟩)
  · intro p n hn ne
    obtain ⟨m, hm, -⟩ := old p n hn
    obtain ⟨pit, hp, ho, hk⟩ := inv.parent p m hm ne
    obtain ⟨pit', hp', ho', hs'⟩ := new _ _ hp
    exact ⟨pit', hp', ho'.trans ho, hs' ▸ hk⟩
  · intro p n hn k mem
    obtain ⟨m, hm, -, hs⟩ := old p n hn
    obtain ⟨slash, hc⟩ := inv.children p m hm k (hs ▸ mem)
    obtain ⟨q, hq⟩ := mem_path_iff.1 hc
    obtain ⟨q', hq', -⟩ := new _ _ hq
    exact ⟨slash, Finmap.mem_iff.2 ⟨q', hq'⟩⟩
  · intro p n hn owned
    obtain ⟨m, hm, ho, hs⟩ := old p n hn
    exact hs ▸ inv.leaf p m hm (ho ▸ owned)
  · intro n hn
    obtain ⟨m, hm, ho, -⟩ := old [] n hn
    exact ho ▸ inv.root m hm
  · intro p hg
    obtain ⟨m, hm, ho⟩ := inv.counted p hg
    obtain ⟨n, hn, ho', -⟩ := new _ _ hm
    exact ⟨n, hn, ho'.trans ho⟩

theorem masterGet_state (s : State) (path : Text) : ∃ resp, masterGet s path = some { state := s, resp } := by
  unfold masterGet
  split
  · exact ⟨_, rfl⟩
  · split <;> exact ⟨_, rfl⟩

theorem masterSub_state (s : State) (path : Text) : ∃ resp, masterSub s path = some { state := s, resp } := by
  unfold masterSub
  split
  · exact ⟨_, rfl⟩
  · split <;> exact ⟨_, rfl⟩

end Prpc.Master
