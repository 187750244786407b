import Prpc.Master.Runs

namespace Prpc.Master
open Lib

variable {s t u : State} {c x : ClientId} {base q : Text}

def SameNodes (base : Text) (s t : State) : Prop := ∀ p, Below base p → t.path.lookup p = s.path.lookup p

theorem SameNodes.trans (first : SameNodes base s t) (second : SameNodes base t u) : SameNodes base s u :=
  fun p below => (second p below).trans (first p below)

def Announces (s t : State) (notified : List (ClientId × Text)) : Prop :=
  ∀ x ∈ s.watchers, ∀ base, base ≠ [] → (∃ q, (x, q) ∈ notified ∧ Below base q) ∨ SameNodes base s t

theorem announces_same (same : ∀ p ≠ [], t.path.lookup p = s.path.lookup p) : Announces s t [] := by
  intro x _ base ne
  refine .inr fun p below => same p ?_
  rcases below with rfl | ⟨r, rfl⟩
  · exact ne
  · simp [child]

theorem Announces.trans {first second : List (ClientId × Text)} (announced : Announces s t first)
    (watchers : t.watchers = s.watchers) (rest : Announces t u second) : Announces s u (first ++ second) := by
  intro x mem base ne
  rcases announced x mem base ne with ⟨q, sent, below⟩ | same
  · exact .inl ⟨q, List.mem_append_left _ sent, below⟩
  · rcases rest x (watchers ▸ mem) base ne with ⟨q, sent, below⟩ | same'
    · exact .inl ⟨q, List.mem_append_right _ sent, below⟩
    · exact .inr (same.trans same')

theorem mem_notifyWatchers (mem : x ∈ s.watchers) (q : Text) : (x, q) ∈ notifyWatchers s q := by
  rw [notifyWatchers, List.mem_map]
  exact ⟨x, (Finset.mem_sort _).2 mem, rfl⟩

theorem announces_of_edit (slash : '/' ∈ q)
    (same : ∀ p, p ≠ q → p ≠ parentOf q → t.path.lookup p = s.path.lookup p) :
    Announces s t (notifyWatchers s q) := by
  intro x mem base _
  by_cases below : Below base q
  · exact .inl ⟨q, mem_notifyWatchers mem q, below⟩
  · refine .inr fun p under => same p ?_ ?_
    · rintro rfl
      exact below under
    · rintro rfl
      have := under.child (keyOf q)
      rw [child_parentOf_keyOf slash] at this
      exact below this

theorem lookup_insertNode_other {parent key p : Text} (pit node : MasterNode) (other : p ≠ child parent key)
    (other' : p ≠ parent) : (insertNode s parent key pit node).path.lookup p = s.path.lookup p := by
  rw [lookup_insertNode, if_neg other', if_neg other]

theorem lookup_removeNode_other {parent key p : Text} (pit : MasterNode) (other : p ≠ child parent key)
    (other' : p ≠ parent) : (removeNode s parent key pit).path.lookup p = s.path.lookup p := by
  rw [lookup_removeNode, if_neg other', if_neg other]

variable {out : Outcome}

theorem masterGen_announces (inv : TreeInv s) {parent value : Text} {ephemeral : Bool}
    (handled : masterGen s c parent value ephemeral = some out) : Announces s out.state out.notified ∧ out.state.watchers = s.watchers := by
  by_cases h : ∃ pit, Generable s parent pit ∧ (genKey (s.gen parent)).length ≤ 11 ∧
      child parent (genKey (s.gen parent)) ∉ s.path
  · obtain ⟨pit, generable, short, fresh⟩ := h
    rw [masterGen_ok inv generable short fresh] at handled
    cases handled
    refine ⟨announces_of_edit (slash_mem_child _ _) fun p other other' => ?_, rfl⟩
    rw [parentOf_child (slash_notMem_genKey _)] at other'
    exact lookup_insertNode_other _ _ other other'
  · obtain ⟨code, t, -, moved, eq⟩ := masterGen_refused c value ephemeral h
    rw [eq] at handled
    cases handled
    rcases moved with rfl | ⟨rfl, -⟩
    · exact ⟨announces_same fun _ _ => rfl, rfl⟩
    · exact ⟨announces_same fun _ _ => rfl, rfl⟩

theorem masterAdd_announces (inv : TreeInv s) {path value : Text} {ephemeral : Bool}
    (handled : masterAdd s c path value ephemeral = some out) : Announces s out.state out.notified ∧ out.state.watchers = s.watchers := by
  by_cases h : ∃ pit, Addable s path pit
  · obtain ⟨pit, addable⟩ := h
    rw [masterAdd_ok inv addable] at handled
    cases handled
    refine ⟨announces_of_edit (slash_mem_of_valid addable.valid) fun p other other' => ?_, rfl⟩
    rw [← child_of_valid addable.valid] at other
    exact lookup_insertNode_other _ _ other other'
  · obtain ⟨code, -, -, eq⟩ := masterAdd_refused c value ephemeral (not_exists.1 h)
    rw [eq] at handled
    cases handled
    exact ⟨announces_same fun _ _ => rfl, rfl⟩

theorem masterDel_announces (inv : TreeInv s) {path : Text}
    (handled : masterDel s path = some out) : Announces s out.state out.notified ∧ out.state.watchers = s.watchers := by
  by_cases h : ∃ it, Deletable s path it
  · obtain ⟨it, deletable⟩ := h
    obtain ⟨pit, -, -, eq⟩ := masterDel_ok inv deletable
    rw [eq] at handled
    cases handled
    refine ⟨announces_of_edit (slash_mem_of_valid deletable.valid) fun p other other' => ?_, rfl⟩
    rw [← child_of_valid deletable.valid] at other
    exact lookup_removeNode_other _ other other'
  · obtain ⟨code, -, -, eq⟩ := masterDel_refused (not_exists.1 h)
    rw [eq] at handled
    cases handled
    exact ⟨announces_same fun _ _ => rfl, rfl⟩

theorem masterSet_announces {path value : Text} (handled : masterSet s path value = some out) :
    Announces s out.state out.notified ∧ out.state.watchers = s.watchers := by
  by_cases h : masterCheckValidPath path = false ∨ s.path.lookup path = none
  · obtain ⟨code, -, eq⟩ := masterSet_refused value h
    rw [eq] at handled
    cases handled
    exact ⟨announces_same fun _ _ => rfl, rfl⟩
  · rw [not_or, Bool.not_eq_false] at h
    obtain ⟨it, node⟩ := Option.ne_none_iff_exists'.1 h.2
    rw [masterSet_ok h.1 node] at handled
    cases handled
    exact ⟨announces_of_edit (slash_mem_of_valid h.1) fun p other _ => Finmap.lookup_insert_of_ne _ other, rfl⟩

variable {temp : List Text}

theorem clearPaths_announces (inv : TreeInv s) (nodup : temp.Nodup)
    (owned : ∀ p ∈ temp, p ∈ ownedPaths s c) {notified : List (ClientId × Text)}
    (cleared : clearPaths s temp = some (t, notified)) : Announces s t notified := by
  induction temp generalizing s notified with
  | nil =>
    cases cleared
    exact announces_same fun _ _ => rfl
  | cons p temp ih =>
    rw [List.nodup_cons] at nodup
    obtain ⟨n, node, owner⟩ := mem_ownedPaths.1 (owned p (List.mem_cons_self ..))
    obtain ⟨pit, parent, clear, inv'⟩ := clearPath_ok inv node owner
    have ne : p ≠ [] := by
      rintro rfl
      rw [inv.root n node] at owner
      cases owner
    have valid := (inv.valid p (mem_path_iff.2 ⟨n, node⟩)).resolve_left ne
    have split := child_of_valid valid
    simp only [clearPaths, clear, Option.bind_eq_bind, Option.bind_some, Option.bind_eq_some_iff,
      Option.pure_def, Option.some.injEq, Prod.mk.injEq] at cleared
    obtain ⟨⟨t', rest⟩, cleared, rfl, rfl⟩ := cleared
    refine Announces.trans (t := removeNode s (parentOf p) (keyOf p) pit) ?_ rfl (ih inv' nodup.2 ?_ cleared)
    · refine announces_of_edit (slash_mem_of_valid valid) fun r other other' => ?_
      rw [← split] at other
      exact lookup_removeNode_other _ other other'
    · intro r mem
      rw [mem_ownedPaths, owner_removeNode parent, split]
      exact ⟨fun eq => nodup.1 (eq ▸ mem), mem_ownedPaths.1 (owned r (List.mem_cons_of_mem _ mem))⟩

theorem disconnectClearData_announces (inv : TreeInv s) (collects : Collects s c temp)
    {notified : List (ClientId × Text)} (cleared : disconnectClearData s temp = some (t, notified)) :
    Announces s t notified ∧ t.watchers = s.watchers := by
  have owned : ∀ p ∈ temp, p ∈ ownedPaths s c := fun p mem => by
    rw [← collects.2, List.mem_toFinset]
    exact mem
  refine ⟨clearPaths_announces inv collects.1 owned cleared, ?_⟩
  obtain ⟨t', notified', cleared', -, -, watchers, -⟩ := clearPaths_ok inv collects.1 owned
  rw [disconnectClearData, cleared'] at cleared
  cases cleared
  exact watchers

theorem touchRoot_same (s : State) {p : Text} (ne : p ≠ []) : (touchRoot s).path.lookup p = s.path.lookup p := by
  rw [lookup_touchRoot, if_neg fun both => ne both.1]

theorem watchers_touchRoot (s : State) : (touchRoot s).watchers = s.watchers := by
  rw [touchRoot]
  split <;> rfl

theorem handleOp_announces (inv : TreeInv s) {req : Request}
    (collects : req = .clientFinalize → Collects (touchRoot s) c temp)
    (handled : handleOp s c temp req = some out) :
    Announces s out.state out.notified ∧ out.state.watchers ⊆ s.watchers := by
  have touched : Announces s (touchRoot s) [] := announces_same fun _ => touchRoot_same s
  have watchers := watchers_touchRoot s
  suffices Announces (touchRoot s) out.state out.notified ∧ out.state.watchers ⊆ (touchRoot s).watchers by
    rw [watchers] at this
    exact ⟨touched.trans watchers this.1, this.2⟩
  cases req with
  | gen parent value ephemeral => exact (masterGen_announces inv.touched handled).imp_right fun same => same.subset
  | add path value ephemeral => exact (masterAdd_announces inv.touched handled).imp_right fun same => same.subset
  | del path => exact (masterDel_announces inv.touched handled).imp_right fun same => same.subset
  | set path value => exact (masterSet_announces handled).imp_right fun same => same.subset
  | get path =>
    obtain ⟨resp, eq⟩ := masterGet_state (touchRoot s) path
    simp only [handleOp, eq] at handled
    cases handled
    exact ⟨announces_same fun _ _ => rfl, subset_rfl⟩
  | sub path =>
    obtain ⟨resp, eq⟩ := masterSub_state (touchRoot s) path
    simp only [handleOp, eq] at handled
    cases handled
    exact ⟨announces_same fun _ _ => rfl, subset_rfl⟩
  | exit =>
    cases handled
    exact ⟨announces_same fun _ _ => rfl, subset_rfl⟩
  | clientFinalize =>
    simp only [handleOp, Option.bind_eq_bind, Option.bind_eq_some_iff, Option.pure_def, Option.some.injEq] at handled
    obtain ⟨⟨t, notified⟩, cleared, rfl⟩ := handled
    obtain ⟨announced, same⟩ := disconnectClearData_announces inv.touched (collects rfl) cleared
    exact ⟨announced, (Finset.erase_subset ..).trans same.subset⟩

end Prpc.Master
