import Mathlib.Data.List.Induction
import Mathlib.Data.List.Perm.Basic

/-!
A summary starts empty, takes values one by one and takes in other summaries.
-/

namespace Prpc.Lib

variable {V S S' : Type}

structure Merging (V S : Type) where
  empty : S
  add : S → V → S
  join : S → S → S

namespace Merging
variable {M : Merging V S} {carried : S → S → Prop} {vals l r : List V} {s t : S}

/-- The summaries of `l` that can be built from empty ones; on the way a summary can be carried elsewhere. -/
inductive Built (M : Merging V S) (carried : S → S → Prop) : List V → S → Prop
  | empty : Built M carried [] M.empty
  | add {l : List V} {s : S} (built : Built M carried l s) (v : V) : Built M carried (l ++ [v]) (M.add s v)
  | join {l r : List V} {s t : S} (left : Built M carried l s) (right : Built M carried r t) :
      Built M carried (l ++ r) (M.join s t)
  | carry {l : List V} {s t : S} (built : Built M carried l s) (moved : carried s t) : Built M carried l t

def summary (M : Merging V S) (vals : List V) : S := vals.foldl M.add M.empty

structure Lawful (M : Merging V S) (carried : S → S → Prop) : Prop where
  add_comm : ∀ s v w, M.add (M.add s v) w = M.add (M.add s w) v
  join_empty : ∀ s, M.join s M.empty = s
  join_add : ∀ s t v, M.join s (M.add t v) = M.add (M.join s t) v
  carry : ∀ s t, carried s t → t = s

theorem summary_concat (M : Merging V S) (vals : List V) (v : V) :
    M.summary (vals ++ [v]) = M.add (M.summary vals) v :=
  List.foldl_append

theorem Lawful.summary_perm (lawful : M.Lawful carried) (perm : vals.Perm l) : M.summary vals = M.summary l := by
  have : RightCommutative M.add := ⟨lawful.add_comm⟩
  exact perm.foldl_eq M.empty

theorem Lawful.join_summary (lawful : M.Lawful carried) (l r : List V) :
    M.join (M.summary l) (M.summary r) = M.summary (l ++ r) := by
  induction r using List.reverseRecOn with
  | nil =>
    rw [List.append_nil]
    exact lawful.join_empty _
  | append_singleton r v ih => rw [summary_concat, lawful.join_add, ih, ← List.append_assoc, summary_concat]

theorem Built.eq_summary (built : M.Built carried l s) (lawful : M.Lawful carried) : s = M.summary l := by
  induction built with
  | empty => rfl
  | add built v ih => rw [summary_concat, ih]
  | join left right ihLeft ihRight => rw [ihLeft, ihRight, lawful.join_summary]
  | carry built moved ih => rw [lawful.carry _ _ moved, ih]

theorem Built.map {M' : Merging V S'} {carried' : S' → S' → Prop} (f : S → S') (empty : f M.empty = M'.empty)
    (add : ∀ s v, f (M.add s v) = M'.add (f s) v) (join : ∀ s t, f (M.join s t) = M'.join (f s) (f t))
    (carry : ∀ s t, carried s t → carried' (f s) (f t)) (built : M.Built carried l s) :
    M'.Built carried' l (f s) := by
  induction built with
  | empty =>
    rw [empty]
    exact .empty
  | add built v ih =>
    rw [add]
    exact ih.add v
  | join left right ihLeft ihRight =>
    rw [join]
    exact ihLeft.join ihRight
  | carry built moved ih => exact ih.carry (carry _ _ moved)

/-- However the values were spread and merged, the summary is that of the values one by one, and an empty
summary makes no difference. -/
def PartitionIndependent (M : Merging V S) (carried : S → S → Prop) : Prop :=
  (∀ vals l s, vals.Perm l → M.Built carried l s → s = M.summary vals) ∧
  (∀ s, M.join s M.empty = s) ∧
  (∀ l s, M.Built carried l s → M.join M.empty s = s)

theorem Lawful.partitionIndependent (lawful : M.Lawful carried) : M.PartitionIndependent carried := by
  refine ⟨fun vals l s perm built => ?_, lawful.join_empty, fun l s built => ?_⟩
  · rw [built.eq_summary lawful, lawful.summary_perm perm]
  · rw [(Built.empty.join built).eq_summary lawful, built.eq_summary lawful]
    rfl

end Merging

end Prpc.Lib
