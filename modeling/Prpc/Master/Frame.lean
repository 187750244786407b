import Prpc.Master.Runs

namespace Prpc.Master
open Lib

variable {s t : State} {c : ClientId}

def Request.target : Request → Option Text
  | .gen parent _ _ => some parent
  | .add path _ _ => some path
  | .del path => some path
  | .get path => some path
  | .set path _ => some path
  | .sub path => some path
  | .exit => none
  | .clientFinalize => none

def SameBelow (base : Text) (s t : State) : Prop :=
  ∀ p, Below base p → t.path.lookup p = s.path.lookup p ∧ t.gen p = s.gen p

theorem SameBelow.refl (base : Text) (s : State) : SameBelow base s s := fun _ _ => ⟨rfl, rfl⟩

theorem sameBelow_insertNode {base parent key : Text} (pit node : MasterNode)
    (outside : ¬ Below base (child parent key)) :
    SameBelow base s (insertNode s parent key pit node) := by
  intro p below
  rw [lookup_insertNode, if_neg, if_neg]
  · exact ⟨rfl, rfl⟩
  · rintro rfl
    exact outside below
  · rintro rfl
    exact outside (below.child key)

variable {temp : List Text}

/-- A request on a path outside `base` changes nothing at or under `base`, unless it generates
`base` itself. -/
theorem handleOp_sameBelow (inv : TreeInv s) (root : [] ∈ s.path) {base p : Text}
    (settled : base ∈ s.path ∨ ∀ q x, base ≠ child q (genKey x)) {req : Request}
    (target : req.target = some p)
    (outside : ¬ Below base p) {out : Outcome}
    (handled : handleOp s c temp req = some out) : SameBelow base s out.state := by
  have touch := touchRoot_of_mem root
  cases req with
  | gen parent value ephemeral =>
    cases target
    simp only [handleOp, touch] at handled
    have bumped : SameBelow base s (bumpGen s p) := by
      intro q below
      refine ⟨rfl, ?_⟩
      rw [gen_bumpGen, if_neg]
      rintro rfl
      exact outside below
    by_cases h : ∃ pit, Generable s p pit ∧ (genKey (s.gen p)).length ≤ 11 ∧
        child p (genKey (s.gen p)) ∉ s.path
    · obtain ⟨pit, generable, short, fresh⟩ := h
      rw [masterGen_ok inv generable short fresh] at handled
      cases handled
      have outside' : ¬ Below base (child p (genKey (s.gen p))) := by
        rw [below_child_iff (slash_notMem_genKey _)]
        rintro (eq | below)
        · rcases settled with exist | other
          · exact fresh (eq ▸ exist)
          · exact other _ _ eq.symm
        · exact outside below
      intro q below
      obtain ⟨same, same'⟩ := sameBelow_insertNode (s := bumpGen s p) pit
        ⟨ownerOf c ephemeral, value, ∅⟩ outside' q below
      exact ⟨same.trans (bumped q below).1, same'.trans (bumped q below).2⟩
    · obtain ⟨code, u, -, hu, eq⟩ := masterGen_refused c value ephemeral h
      rw [eq] at handled
      cases handled
      rcases hu with rfl | ⟨rfl, -⟩
      · exact .refl _ _
      · exact bumped
  | add path value ephemeral =>
    cases target
    simp only [handleOp, touch] at handled
    by_cases h : ∃ pit, Addable s p pit
    · obtain ⟨pit, addable⟩ := h
      rw [masterAdd_ok inv addable] at handled
      cases handled
      exact sameBelow_insertNode _ _ (by rwa [child_of_valid addable.valid])
    · obtain ⟨code, -, -, eq⟩ := masterAdd_refused c value ephemeral (not_exists.1 h)
      rw [eq] at handled
      cases handled
      exact .refl _ _
  | del path =>
    cases target
    simp only [handleOp, touch] at handled
    by_cases h : ∃ it, Deletable s p it
    · obtain ⟨it, deletable⟩ := h
      obtain ⟨pit, -, -, eq⟩ := masterDel_ok inv deletable
      rw [eq] at handled
      cases handled
      have split := child_of_valid deletable.valid
      intro q below
      have ne : q ≠ p := by
        rintro rfl
        exact outside below
      have ne' : q ≠ parentOf p := by
        rintro rfl
        exact outside (split ▸ below.child (keyOf p))
      refine ⟨?_, by rw [gen_deletedNode, if_neg ne]⟩
      show (removeNode s (parentOf p) (keyOf p) pit).path.lookup q = _
      rw [lookup_removeNode, if_neg ne', split, if_neg ne]
    · obtain ⟨code, -, -, eq⟩ := masterDel_refused (not_exists.1 h)
      rw [eq] at handled
      cases handled
      exact .refl _ _
  | set path value =>
    cases target
    simp only [handleOp, touch] at handled
    by_cases h : masterCheckValidPath p = false ∨ s.path.lookup p = none
    · obtain ⟨code, -, eq⟩ := masterSet_refused value h
      rw [eq] at handled
      cases handled
      exact .refl _ _
    · rw [not_or, Bool.not_eq_false] at h
      obtain ⟨it, hit⟩ := Option.ne_none_iff_exists'.1 h.2
      rw [masterSet_ok h.1 hit] at handled
      cases handled
      intro q below
      refine ⟨Finmap.lookup_insert_of_ne _ ?_, rfl⟩
      rintro rfl
      exact outside below
  | get path =>
    obtain ⟨resp, eq⟩ := masterGet_state s path
    simp only [handleOp, touch, eq, Option.some.injEq] at handled
    subst handled
    exact .refl _ _
  | sub path =>
    obtain ⟨resp, eq⟩ := masterSub_state s path
    simp only [handleOp, touch, eq, Option.some.injEq] at handled
    subst handled
    exact .refl _ _
  | exit => cases target
  | clientFinalize => cases target

def withoutOwner (s : State) (c : ClientId) (p : Text) : Option MasterNode :=
  if p ∈ ownedPaths s c then none
  else (s.path.lookup p).map fun n => { n with sub := n.sub.filter (child p · ∉ ownedPaths s c) }

theorem clearPaths_lookup (inv : TreeInv s) (nodup : temp.Nodup)
    (owned : ∀ p ∈ temp, p ∈ ownedPaths s c) {notified : List (ClientId × Text)}
    (clear : clearPaths s temp = some (t, notified)) :
    (∀ p, t.gen p = s.gen p) ∧
    ∀ p, t.path.lookup p = if p ∈ temp then none
      else (s.path.lookup p).map fun n => { n with sub := n.sub.filter (child p · ∉ temp) } := by
  induction temp generalizing s notified with
  | nil =>
    simp only [clearPaths, Option.some.injEq, Prod.mk.injEq] at clear
    rw [clear.1]
    simp
  | cons q temp ih =>
    rw [List.nodup_cons] at nodup
    obtain ⟨n, hn, ho⟩ := mem_ownedPaths.1 (owned q (List.mem_cons_self ..))
    obtain ⟨pit, hp, one, inv'⟩ := clearPath_ok inv hn ho
    have ne : q ≠ [] := by
      rintro rfl
      rw [inv.root n hn] at ho
      cases ho
    have split : child (parentOf q) (keyOf q) = q :=
      child_of_valid ((inv.valid q (mem_path_iff.2 ⟨n, hn⟩)).resolve_left ne)
    simp only [clearPaths, one, Option.bind_eq_bind, Option.bind_some, Option.bind_eq_some_iff,
      Option.pure_def, Option.some.injEq, Prod.mk.injEq] at clear
    obtain ⟨⟨u, rest⟩, hu, rfl, -⟩ := clear
    obtain ⟨gens, lookups⟩ := ih inv' nodup.2 (fun r hr => by
      rw [mem_ownedPaths, owner_removeNode hp, split]
      exact ⟨fun eq => nodup.1 (eq ▸ hr), mem_ownedPaths.1 (owned r (List.mem_cons_of_mem _ hr))⟩) hu
    refine ⟨fun p => by rw [gens, gen_removeNode], fun p => ?_⟩
    rw [lookups, lookup_removeNode, split]
    by_cases mem : p ∈ temp
    · simp [mem]
    · by_cases eq : p = q
      · subst eq
        have other : p ≠ parentOf p := fun eq =>
          child_ne_self (parentOf p) (keyOf p) (split.trans eq)
        simp [other, mem]
      · by_cases eq' : p = parentOf q
        · subst eq'
          simp only [mem, eq, if_false, if_true, Option.map_some, hp, List.mem_cons, or_self,
            Option.some.injEq, MasterNode.mk.injEq, true_and]
          ext k
          simp only [Finset.mem_filter, Finset.mem_erase, not_or]
          constructor
          · rintro ⟨⟨nk, mk⟩, nt⟩
            exact ⟨mk, fun eq => nk (child_right_inj.1 (eq.trans split.symm)), nt⟩
          · rintro ⟨mk, nq, nt⟩
            exact ⟨⟨fun eq => nq (by rw [eq, split]), mk⟩, nt⟩
        · simp only [mem, eq, eq', if_false, List.mem_cons, or_self]
          cases hl : s.path.lookup p with
          | none => rfl
          | some m =>
            simp only [Option.map_some, Option.some.injEq, MasterNode.mk.injEq, true_and]
            ext k
            simp only [Finset.mem_filter, not_or]
            refine and_congr_right fun mk => (and_iff_right fun eqk => ?_).symm
            have slash := (inv.children p m hl k mk).1
            apply eq'
            rw [← eqk, parentOf_child slash]

theorem disconnectClearData_lookup (inv : TreeInv s)
    (collects : Collects s c temp) {notified : List (ClientId × Text)}
    (clear : disconnectClearData s temp = some (t, notified)) :
    (∀ p, t.gen p = s.gen p) ∧ ∀ p, t.path.lookup p = withoutOwner s c p := by
  have mem : ∀ p, p ∈ temp ↔ p ∈ ownedPaths s c := fun p => by
    rw [← collects.2, List.mem_toFinset]
  obtain ⟨gens, lookups⟩ := clearPaths_lookup inv collects.1 (fun p hp => (mem p).1 hp) clear
  refine ⟨gens, fun p => ?_⟩
  rw [lookups, withoutOwner]
  simp [mem]

end Prpc.Master
