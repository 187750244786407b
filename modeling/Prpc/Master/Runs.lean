import Prpc.Master.Requests

namespace Prpc.Master
open Lib

variable {s : State} {c : ClientId}

theorem mem_ownedPaths {p : Text} :
    p ∈ ownedPaths s c ↔ ∃ n, s.path.lookup p = some n ∧ n.owner = some c := by
  rw [ownedPaths, Finset.mem_filter, Finmap.mem_keys, mem_path_iff]
  cases h : s.path.lookup p with
  | none => simp
  | some n => simp

theorem clearPath_ok (inv : TreeInv s) {p : Text} {n : MasterNode}
    (hn : s.path.lookup p = some n) (owned : n.owner = some c) :
    ∃ pit, s.path.lookup (parentOf p) = some pit ∧
      clearPath s p = some (removeNode s (parentOf p) (keyOf p) pit) ∧
      TreeInv (removeNode s (parentOf p) (keyOf p) pit) := by
  have mem : p ∈ s.path := mem_path_iff.2 ⟨n, hn⟩
  have ne : p ≠ [] := by
    rintro rfl
    rw [inv.root n hn] at owned
    cases owned
  have split : child (parentOf p) (keyOf p) = p := child_of_valid ((inv.valid p mem).resolve_left ne)
  have other : parentOf p ≠ p := fun eq => child_ne_self (parentOf p) (keyOf p) (split.trans eq.symm)
  obtain ⟨pit, hp, -, key⟩ := inv.parent p n hn ne
  have childless : n.sub = ∅ := inv.leaf p n hn (by simp [owned])
  have uncounted : s.gen p = 0 := by
    by_contra counted
    obtain ⟨m, hm, ho⟩ := inv.counted p counted
    rw [hn] at hm
    cases hm
    rw [owned] at ho
    cases ho
  refine ⟨pit, hp, ?_, ?_⟩
  · simp [clearPath, mem, Finmap.lookup_erase_ne other, hp, key, removeNode, split]
  · refine inv.removeNode (keyOf p) hp (by rw [split]; exact hn) (slash_notMem_keyOf p)
      childless rfl fun q => ?_
    rw [gen_removeNode, split]
    split_ifs with eq
    · rw [eq, uncounted]
    · rfl

theorem owner_removeNode {parent key : Text} {pit : MasterNode}
    (hp : s.path.lookup parent = some pit) (q : Text) (d : ClientId) :
    (∃ n, (removeNode s parent key pit).path.lookup q = some n ∧ n.owner = some d) ↔
      q ≠ child parent key ∧ ∃ n, s.path.lookup q = some n ∧ n.owner = some d := by
  rw [lookup_removeNode]
  by_cases eq : q = parent
  · subst eq
    simp [hp, (child_ne_self q key).symm]
  · by_cases eq' : q = child parent key
    · simp [eq', child_ne_self]
    · simp [eq, eq']

theorem clearPaths_ok (inv : TreeInv s) {temp : List Text} (nodup : temp.Nodup)
    (owned : ∀ p ∈ temp, p ∈ ownedPaths s c) :
    ∃ t notified, clearPaths s temp = some (t, notified) ∧ TreeInv t ∧
      ([] ∈ s.path → [] ∈ t.path) ∧ t.watchers = s.watchers ∧
      (∀ q d, (∃ n, t.path.lookup q = some n ∧ n.owner = some d) ↔
        q ∉ temp ∧ ∃ n, s.path.lookup q = some n ∧ n.owner = some d) := by
  induction temp generalizing s with
  | nil => exact ⟨s, [], rfl, inv, id, rfl, by simp⟩
  | cons p temp ih =>
    rw [List.nodup_cons] at nodup
    obtain ⟨n, hn, ho⟩ := mem_ownedPaths.1 (owned p (List.mem_cons_self ..))
    obtain ⟨pit, hp, clear, inv'⟩ := clearPath_ok inv hn ho
    have ne : p ≠ [] := by
      rintro rfl
      rw [inv.root n hn] at ho
      cases ho
    have split : child (parentOf p) (keyOf p) = p :=
      child_of_valid ((inv.valid p (mem_path_iff.2 ⟨n, hn⟩)).resolve_left ne)
    obtain ⟨t, notified, rest, inv'', root, watchers, owners⟩ := ih inv' nodup.2 fun q hq => by
      rw [mem_ownedPaths, owner_removeNode hp, split]
      exact ⟨fun eq => nodup.1 (eq ▸ hq), mem_ownedPaths.1 (owned q (List.mem_cons_of_mem _ hq))⟩
    refine ⟨t, notifyWatchers (removeNode s (parentOf p) (keyOf p) pit) p ++ notified,
      by simp [clearPaths, clear, rest], inv'', ?_, watchers, ?_⟩
    · intro hroot
      obtain ⟨r, hr⟩ := mem_path_iff.1 hroot
      obtain ⟨r', hr', -⟩ := removeNode_keeps (keyOf p) hp (by rw [split]; exact ne.symm) hr
      exact root (mem_path_iff.2 ⟨r', hr'⟩)
    · intro q d
      rw [owners, owner_removeNode hp, split, List.mem_cons, not_or, ← and_assoc, and_comm (a := q ∉ temp)]

def OwnsNothing (s : State) (c : ClientId) : Prop := ∀ p n, s.path.lookup p = some n → n.owner ≠ some c

theorem disconnectClearData_ok (inv : TreeInv s) {temp : List Text} (collects : Collects s c temp) :
    ∃ t notified, disconnectClearData s temp = some (t, notified) ∧ TreeInv t ∧
      ([] ∈ s.path → [] ∈ t.path) ∧ OwnsNothing t c := by
  have mem : ∀ p, p ∈ temp ↔ p ∈ ownedPaths s c := fun p => by
    rw [← collects.2, List.mem_toFinset]
  obtain ⟨t, notified, clear, inv', root, -, owners⟩ := clearPaths_ok inv collects.1 fun p hp => (mem p).1 hp
  refine ⟨t, notified, clear, inv', root, fun p n hn ho => ?_⟩
  obtain ⟨notMem, h⟩ := (owners p c).1 ⟨n, hn, ho⟩
  exact notMem ((mem p).2 (mem_ownedPaths.2 h))

theorem lookup_touchRoot (s : State) (p : Text) : (touchRoot s).path.lookup p =
      if p = [] ∧ [] ∉ s.path then some {} else s.path.lookup p := by
  unfold touchRoot
  by_cases root : [] ∈ s.path
  · simp [root]
  · by_cases eq : p = []
    · subst eq
      simp [root]
    · simp [root, eq, Finmap.lookup_insert_of_ne _ eq]

theorem touchRoot_of_mem (root : [] ∈ s.path) : touchRoot s = s := by simp [touchRoot, root]

theorem root_mem_touchRoot (s : State) : [] ∈ (touchRoot s).path := by
  by_cases root : [] ∈ s.path
  · rwa [touchRoot_of_mem root]
  · simp [touchRoot, root]

theorem gen_touchRoot (s : State) (p : Text) : (touchRoot s).gen p = s.gen p := by
  unfold touchRoot
  split <;> rfl

theorem root_mem_of_mem (inv : TreeInv s) {p : Text} (mem : p ∈ s.path) : [] ∈ s.path := by
  induction len : p.length using Nat.strong_induction_on generalizing p with
  | _ k ih =>
    by_cases eq : p = []
    · exact eq ▸ mem
    · obtain ⟨n, hn⟩ := mem_path_iff.1 mem
      obtain ⟨pit, hp, -⟩ := inv.parent p n hn eq
      have split := congrArg List.length (child_of_valid ((inv.valid p mem).resolve_left eq))
      simp only [child, List.length_append, List.length_cons] at split
      exact ih _ (by omega) (mem_path_iff.2 ⟨pit, hp⟩) rfl

theorem TreeInv.touched (inv : TreeInv s) : TreeInv (touchRoot s) := by
  by_cases root : [] ∈ s.path
  · rwa [touchRoot_of_mem root]
  -- Without a root there is no node at all.
  have none : ∀ p, s.path.lookup p = none := fun p => by
    rw [Finmap.lookup_eq_none]
    exact fun mem => root (root_mem_of_mem inv mem)
  have only : ∀ p n, (touchRoot s).path.lookup p = some n → p = [] ∧ n = {} := by
    intro p n hn
    rw [lookup_touchRoot] at hn
    split at hn
    · rename_i h
      exact ⟨h.1, by cases hn; rfl⟩
    · rw [none] at hn
      cases hn
  constructor
  · intro p mem
    obtain ⟨n, hn⟩ := mem_path_iff.1 mem
    exact .inl (only p n hn).1
  · intro p n hn ne
    exact absurd (only p n hn).1 ne
  · intro p n hn k mem
    rw [(only p n hn).2] at mem
    simp at mem
  · intro p n hn _
    rw [(only p n hn).2]
  · intro n hn
    rw [(only [] n hn).2]
  · intro p hg
    rw [gen_touchRoot] at hg
    obtain ⟨n, hn, -⟩ := inv.counted p hg
    rw [none] at hn
    cases hn

theorem handleOp_ok (inv : TreeInv s) (temp : List Text) (req : Request)
    (collects : req = .clientFinalize → Collects (touchRoot s) c temp) :
    ∃ out, handleOp s c temp req = some out ∧ TreeInv out.state ∧ [] ∈ out.state.path ∧
      (req = .clientFinalize → OwnsNothing out.state c) := by
  have inv' := inv.touched
  have root := root_mem_touchRoot s
  cases req with
  | gen parent value ephemeral =>
    by_cases h : ∃ pit, Generable (touchRoot s) parent pit ∧ (genKey ((touchRoot s).gen parent)).length ≤ 11 ∧
        child parent (genKey ((touchRoot s).gen parent)) ∉ (touchRoot s).path
    · obtain ⟨pit, generable, short, fresh⟩ := h
      have tree := inv'.generated c value ephemeral generable fresh
      exact ⟨_, masterGen_ok inv' generable short fresh, tree, root_mem_of_mem tree (Finmap.mem_insert.2 (.inl rfl)), nofun⟩
    · obtain ⟨code, t, -, ht, out⟩ := masterGen_refused c value ephemeral h
      refine ⟨_, out, ?_⟩
      rcases ht with rfl | ⟨rfl, pit, generable⟩
      · exact ⟨inv', root, nofun⟩
      · exact ⟨inv'.bumped generable.parent generable.persistent, root, nofun⟩
  | add path value ephemeral =>
    by_cases h : ∃ pit, Addable (touchRoot s) path pit
    · obtain ⟨pit, addable⟩ := h
      have tree := inv'.added c value ephemeral addable
      exact ⟨_, masterAdd_ok inv' addable, tree, root_mem_of_mem tree (Finmap.mem_insert.2 (.inl rfl)), nofun⟩
    · obtain ⟨code, -, -, out⟩ := masterAdd_refused c value ephemeral (not_exists.1 h)
      exact ⟨_, out, inv', root, nofun⟩
  | del path =>
    by_cases h : ∃ it, Deletable (touchRoot s) path it
    · obtain ⟨it, deletable⟩ := h
      obtain ⟨pit, hp, -, out⟩ := masterDel_ok inv' deletable
      have tree := inv'.deleted deletable hp
      exact ⟨_, out, tree, root_mem_of_mem tree (Finmap.mem_insert.2 (.inl rfl)), nofun⟩
    · obtain ⟨code, -, -, out⟩ := masterDel_refused (not_exists.1 h)
      exact ⟨_, out, inv', root, nofun⟩
  | set path value =>
    by_cases h : masterCheckValidPath path = false ∨ (touchRoot s).path.lookup path = none
    · obtain ⟨code, -, out⟩ := masterSet_refused value h
      exact ⟨_, out, inv', root, nofun⟩
    · rw [not_or, Bool.not_eq_false] at h
      obtain ⟨it, hit⟩ := Option.ne_none_iff_exists'.1 h.2
      have tree := inv'.set value hit
      exact ⟨_, masterSet_ok h.1 hit, tree, root_mem_of_mem tree (Finmap.mem_insert.2 (.inl rfl)), nofun⟩
  | get path =>
    obtain ⟨resp, out⟩ := masterGet_state (touchRoot s) path
    exact ⟨_, out, inv', root, nofun⟩
  | sub path =>
    obtain ⟨resp, out⟩ := masterSub_state (touchRoot s) path
    exact ⟨_, out, inv', root, nofun⟩
  | exit => exact ⟨_, rfl, inv', root, nofun⟩
  | clientFinalize =>
    obtain ⟨t, notified, clear, tree, root', owns⟩ := disconnectClearData_ok inv' (collects rfl)
    refine ⟨{ state := { t with watchers := t.watchers.erase c }, resp := .nothing, notified },
      by simp [handleOp, clear], ?_, root' root, fun _ => owns⟩
    exact tree.watchers _

inductive Event
  | connect (c : ClientId)
  | request (c : ClientId) (req : Request)
  | disconnect (c : ClientId)
  deriving DecidableEq

def serve (s : State) (temp : List Text) : Event → Option State
  | .connect c => some { s with watchers := insert c s.watchers }
  | .request c req => (handleOp s c temp req).map Outcome.state
  | .disconnect c => do
    let (t, _) ← disconnectClearData s temp
    return { t with watchers := t.watchers.erase c }

def Event.leaves : Event → Option ClientId
  | .disconnect c => some c
  | .request c .clientFinalize => some c
  | _ => none

def Event.isRequest : Event → Bool
  | .request _ _ => true
  | _ => false

def Scans (s : State) (temp : List Text) (e : Event) : Prop :=
  ∀ c, e.leaves = some c → Collects (if e.isRequest then touchRoot s else s) c temp

inductive Run : List Event → State → Prop
  | start : Run [] .empty
  | serve {events : List Event} {s t : State} (temp : List Text) {e : Event} (run : Run events s)
      (scans : Scans s temp e) (step : serve s temp e = some t) : Run (events ++ [e]) t

theorem serve_ok (inv : TreeInv s) (temp : List Text) (e : Event) (scans : Scans s temp e) :
    ∃ t, serve s temp e = some t ∧ TreeInv t ∧ (([] ∈ s.path ∨ e.isRequest = true) → [] ∈ t.path) ∧
      (∀ c, e.leaves = some c → OwnsNothing t c) := by
  cases e with
  | connect c =>
    refine ⟨_, rfl, ?_, fun h => h.resolve_right (by simp [Event.isRequest]), by simp [Event.leaves]⟩
    exact inv.watchers _
  | request c req =>
    obtain ⟨out, handled, tree, root, owns⟩ := handleOp_ok inv temp req fun eq => by
      subst eq
      exact scans c rfl
    refine ⟨out.state, by simp [serve, handled], tree, fun _ => root, fun d hd => ?_⟩
    cases req <;> simp [Event.leaves] at hd
    exact hd ▸ owns rfl
  | disconnect c =>
    obtain ⟨t, notified, clear, tree, root, owns⟩ := disconnectClearData_ok inv (scans c rfl)
    refine ⟨{ t with watchers := t.watchers.erase c }, by simp [serve, clear], ?_,
      fun h => root (h.resolve_right (by simp [Event.isRequest])), fun d hd => ?_⟩
    · exact tree.watchers _
    · cases hd
      exact owns

theorem Run.tree {events : List Event} (run : Run events s) :
    TreeInv s ∧ ((∃ e ∈ events, e.isRequest = true) → [] ∈ s.path) := by
  induction run with
  | start => exact ⟨.empty, by simp⟩
  | @serve events s t temp e _ scans step ih =>
    obtain ⟨t', step', tree, root, -⟩ := serve_ok ih.1 temp e scans
    rw [step] at step'
    cases step'
    refine ⟨tree, fun ⟨e', mem, hreq⟩ => root ?_⟩
    rcases List.mem_append.1 mem with old | last
    · exact .inl (ih.2 ⟨e', old, hreq⟩)
    · exact .inr (List.mem_singleton.1 last ▸ hreq)

/-- After any history the paths form a tree: there is a root once a request came, every other path
hangs under a persistent parent that lists it, every listed child exists, owned nodes are leaves.
Whatever comes next is handled without a failed check, and a client that leaves owns nothing. -/
theorem run_keeps_tree {events : List Event} (run : Run events s) :
    ((∃ e ∈ events, e.isRequest = true) → [] ∈ s.path) ∧
    (∀ p n, s.path.lookup p = some n → p ≠ [] →
      ∃ pit, s.path.lookup (parentOf p) = some pit ∧ pit.owner = none ∧ keyOf p ∈ pit.sub) ∧
    (∀ p n, s.path.lookup p = some n → ∀ k ∈ n.sub, child p k ∈ s.path) ∧
    (∀ p n, s.path.lookup p = some n → n.owner ≠ none → n.sub = ∅) ∧
    (∀ temp e, Scans s temp e → ∃ t, serve s temp e = some t ∧ ∀ c, e.leaves = some c → OwnsNothing t c) := by
  obtain ⟨tree, root⟩ := run.tree
  refine ⟨root, tree.parent, fun p n hn k mem => (tree.children p n hn k mem).2, tree.leaf,
    fun temp e scans => ?_⟩
  obtain ⟨t, step, -, -, owns⟩ := serve_ok tree temp e scans
  exact ⟨t, step, owns⟩

theorem run_keeps_tree_ephemeral : ∃ s, Run [.connect 7, .request 7 (.add "/a".toList [] true)] s ∧
      ∃ t, serve s ["/a".toList] (.disconnect 7) = some t ∧ OwnsNothing t 7 := by
  have run : Run [.connect 7, .request 7 (.add "/a".toList [] true)] _ :=
    .serve [] (.serve [] .start (by simp [Scans, Event.leaves]) rfl)
      (by simp [Scans, Event.leaves]) rfl
  refine ⟨_, run, ?_⟩
  obtain ⟨t, step, owns⟩ := (run_keeps_tree run).2.2.2.2 ["/a".toList] (.disconnect 7) fun c h => by
    cases h
    decide
  exact ⟨t, step, owns 7 rfl⟩

end Prpc.Master
