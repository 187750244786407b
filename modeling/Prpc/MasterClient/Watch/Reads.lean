import Prpc.MasterClient.Watch.Model

/-!
The callbacks of every directory of a notified path are called.
-/

namespace Prpc.MasterClient.Watch
open Lib Master

def lastPath (cur : Text) (segs : List Text) : Text := (notifyPaths cur segs).getLast?.getD cur

theorem notifyPaths_append (cur : Text) (segs segs' : List Text) :
    notifyPaths cur (segs ++ segs') = notifyPaths cur segs ++ notifyPaths (lastPath cur segs) segs' := by
  induction segs generalizing cur with
  | nil => rfl
  | cons seg segs ih =>
    rw [List.cons_append, notifyPaths, notifyPaths, lastPath, notifyPaths]
    split
    · exact ih cur
    · rw [ih, List.cons_append, lastPath, List.getLast?_cons]
      rfl

theorem splitOn_child (p k : Text) : (child p k).splitOn '/' = p.splitOn '/' ++ k.splitOn '/' :=
  List.splitOn_append_cons_self p k

theorem lastPath_of_valid {p : Text} (valid : p = [] ∨ masterCheckValidPath p = true) :
    lastPath [] (p.splitOn '/') = p ∧ (p ≠ [] → p ∈ curs p) := by
  induction h : p.length using Nat.strong_induction_on generalizing p with
  | _ n ih =>
    subst h
    rcases valid with rfl | valid
    · exact ⟨rfl, fun ne => absurd rfl ne⟩
    · have split := child_of_valid valid
      have key := slash_notMem_keyOf p
      obtain ⟨parent, ne⟩ := (valid_child_iff key).1 (split.symm ▸ valid)
      have shorter : (parentOf p).length < p.length := by
        have length := congrArg List.length split
        rw [child, List.length_append, List.length_cons] at length
        omega
      obtain ⟨whole, -⟩ := ih _ shorter parent rfl
      have paths : curs p = notifyPaths [] ((parentOf p).splitOn '/') ++ [p] := by
        rw [curs, ← split, splitOn_child, List.splitOn_eq_singleton key, notifyPaths_append, split, whole,
          notifyPaths, if_neg ne, split]
        rfl
      refine ⟨?_, fun _ => ?_⟩
      · rw [lastPath, ← curs, paths, List.getLast?_concat]
        rfl
      · rw [paths]
        exact List.mem_append_right _ (List.mem_singleton_self p)

theorem mem_curs_of_below {p q : Text} (valid : masterCheckValidPath p = true) (below : Below p q) : p ∈ curs q := by
  have here := (lastPath_of_valid (.inr valid)).2 (ne_nil_of_valid valid)
  rcases below with rfl | ⟨r, rfl⟩
  · exact here
  · rw [curs, splitOn_child, notifyPaths_append]
    exact List.mem_append_left _ here

variable {root : RootPath} {c : ClientId} {m m' : State} {base : Text}

theorem sameNodes_touchRoot (ne : base ≠ []) (m : State) : SameNodes base m (touchRoot m) := by
  intro p below
  refine touchRoot_same m ?_
  rcases below with rfl | ⟨r, rfl⟩
  · exact ne
  · simp [child]

theorem treeNodeGet_spec (path : Text) :
    treeNodeGet root m c path = if masterCheckValidPath (root.join path) then
      (touchRoot m, some ((m.path.lookup (root.join path)).map MasterNode.value)) else (m, none) := by
  split
  · rename_i valid
    rw [← touchRoot_same m (ne_nil_of_valid valid)]
    cases h : (touchRoot m).path.lookup (root.join path) with
    | none => simp [treeNodeGet, call, valid, handleOp, masterGet, h, Response.code]
    | some it => simp [treeNodeGet, call, valid, handleOp, masterGet, h, Response.code]
  · rename_i invalid
    simp [treeNodeGet, call, invalid]

theorem treeNodeSub_spec (path : Text) :
    treeNodeSub root m c path = if masterCheckValidPath (root.join path) then
      (touchRoot m, some ((m.path.lookup (root.join path)).map fun it => it.sub.sort)) else (m, none) := by
  split
  · rename_i valid
    rw [← touchRoot_same m (ne_nil_of_valid valid)]
    cases h : (touchRoot m).path.lookup (root.join path) with
    | none => simp [treeNodeSub, call, valid, handleOp, masterSub, h, Response.code]
    | some it => simp [treeNodeSub, call, valid, handleOp, masterSub, h, Response.code]
  · rename_i invalid
    simp [treeNodeSub, call, invalid]

theorem Pred.evaluate_congr {pred : Pred} (within : pred.Within root base) (ne : base ≠ [])
    (same : SameNodes base m m') : pred.evaluate root c m' = pred.evaluate root c m := by
  have touched {m m' : State} (same : SameNodes base m m') : SameNodes base (touchRoot m) (touchRoot m') := by
    intro p below
    rw [sameNodes_touchRoot ne m' p below, sameNodes_touchRoot ne m p below, same p below]
  induction pred generalizing m m' with
  | done result => rfl
  | get path next ih =>
    simp only [evaluate, treeNodeGet_spec]
    by_cases valid : masterCheckValidPath (root.join path) = true
    · simp only [valid, if_true, same _ within.1]
      exact ih _ (within.2 _) (touched same)
    · simp only [valid]
      rfl
  | sub path next ih =>
    simp only [evaluate, treeNodeSub_spec]
    by_cases valid : masterCheckValidPath (root.join path) = true
    · simp only [valid, if_true, same _ within.1]
      exact ih _ (within.2 _) (touched same)
    · simp only [valid]
      rfl

theorem Pred.evaluate_read {pred next : Pred} (done : pred.read root c m = (m', some next)) :
    pred.evaluate root c m = next.evaluate root c m' ∧ m' = touchRoot m ∧
      ∀ base, pred.Within root base → next.Within root base := by
  cases pred with
  | done result => cases done
  | get path next =>
    simp only [read, treeNodeGet_spec] at done
    by_cases valid : masterCheckValidPath (root.join path) = true
    · simp only [valid, if_true, Prod.map_apply, id, Option.map_some, Prod.mk.injEq, Option.some.injEq] at done
      obtain ⟨rfl, rfl⟩ := done
      refine ⟨?_, rfl, fun _ within => within.2 _⟩
      simp [evaluate, treeNodeGet_spec, valid]
    · simp [valid] at done
  | sub path next =>
    simp only [read, treeNodeSub_spec] at done
    by_cases valid : masterCheckValidPath (root.join path) = true
    · simp only [valid, if_true, Prod.map_apply, id, Option.map_some, Prod.mk.injEq, Option.some.injEq] at done
      obtain ⟨rfl, rfl⟩ := done
      refine ⟨?_, rfl, fun _ within => within.2 _⟩
      simp [evaluate, treeNodeSub_spec, valid]
    · simp [valid] at done

end Prpc.MasterClient.Watch
