import Prpc.Misc.LazyVector.Contents

namespace Prpc.LazyVectors
open Lib

namespace LazyVector
variable {T : Type} {h h' : List (List T)} {v : LazyVector} {items : List T}

def pushAll (pushes : List (T ⊕ List T)) (h : List (List T)) (v : LazyVector) : Option (List (List T) × LazyVector) :=
  pushes.foldlM (fun (h, v) push => match push with
    | .inl item => v.pushBack h item
    | .inr data => some (v.pushBackVector h data)) (h, v)

def item (h : List (List T)) (v : LazyVector) (k : Nat) : Option T := (v.index k).bind (readAt h)

theorem Shows.pushAll (shows_ : Shows h v items) (pushes : List (T ⊕ List T)) :
    ∃ h' v', v.pushAll pushes h = some (h', v') ∧ Extends h h' := by
  induction pushes generalizing h v items with
  | nil => exact ⟨h, v, rfl, .refl h⟩
  | cons push pushes ih =>
    have first : ∃ h₁ v₁ items₁, LazyVector.pushAll (push :: pushes) h v = LazyVector.pushAll pushes h₁ v₁ ∧
        Extends h h₁ ∧ Shows h₁ v₁ items₁ := by
      cases push with
      | inl item =>
        obtain ⟨h₁, v₁, done, grows, shows₁⟩ := shows_.pushBack item
        refine ⟨h₁, v₁, _, ?_, grows, shows₁⟩
        simp [LazyVector.pushAll, done]
      | inr data =>
        obtain ⟨grows, shows₁⟩ := shows_.pushBackVector data
        exact ⟨_, _, _, rfl, grows, shows₁⟩
    obtain ⟨h₁, v₁, items₁, step, grows, shows₁⟩ := first
    obtain ⟨h', v', run, grows'⟩ := ih shows₁
    exact ⟨h', v', step.trans run, grows.trans grows'⟩

theorem Shows.item_grow (shows_ : Shows h v items) (grows : Extends h h') (k : Nat) : v.item h' k = v.item h k :=
  ((shows_.grow grows).at_ k).trans (shows_.at_ k).symm

end LazyVector

variable {ι T : Type} [DecidableEq ι] {w : World ι T}

/-- The part of a vector between two indices, which does not disturb the vector whatever is added to the part: there is
one exactly if it does not reach to the end. -/
theorem sub_iff (reached : Reached w) (i : ι) {beginIdx endIdx : Nat} (lt : beginIdx < endIdx)
    (le : endIdx ≤ (w.vectors i).size) :
    (∃ h u, (w.vectors i).sub w.heap beginIdx endIdx = some (h, u) ∧ u.size = endIdx - beginIdx ∧
      (∀ k < endIdx - beginIdx, u.index k = (w.vectors i).index (beginIdx + k) ∧
        (u.item h k).isSome ∧ u.item h k = (w.vectors i).item w.heap (beginIdx + k)) ∧
      (∀ k, (w.vectors i).item h k = (w.vectors i).item w.heap k) ∧
      ∀ pushes, ∃ h' u', u.pushAll pushes h = some (h', u') ∧
        ∀ k, (w.vectors i).item h' k = (w.vectors i).item w.heap k) ↔
    endIdx < (w.vectors i).size := by
  obtain ⟨c, all⟩ := reached.shows
  have shows_ := all i
  constructor
  · rintro ⟨h, u, done, -⟩
    refine Nat.lt_of_le_of_ne le ?_
    rintro rfl
    rw [LazyVector.size, LazyVector.sub_all shows_.intact lt] at done
    cases done
  · intro below
    obtain ⟨u, done, intact, places⟩ := shows_.intact.sub lt below
    have grows : Extends w.heap (w.heap ++ [[]] ++ [[]]) := (Extends.alloc _ []).trans (.alloc _ [])
    have index (k : Nat) (small : k < endIdx - beginIdx) : u.index k = (w.vectors i).index (beginIdx + k) := by
      rw [LazyVector.index_eq intact, places, List.getElem?_take_of_lt small, List.getElem?_drop,
        LazyVector.index_eq shows_.intact]
    have value (k : Nat) (small : k < endIdx - beginIdx) :
        u.item (w.heap ++ [[]] ++ [[]]) k = (w.vectors i).item w.heap (beginIdx + k) := by
      rw [LazyVector.item, index k small]
      exact shows_.item_grow grows _
    refine ⟨_, u, done, ?_, fun k small => ⟨index k small, ?_, value k small⟩, shows_.item_grow grows, fun pushes => ?_⟩
    · rw [LazyVector.size, intact.total, places, List.length_take, List.length_drop, ← shows_.intact.total]
      rw [LazyVector.size] at below
      omega
    · have inside : beginIdx + k < (c i).length := by
        rw [← shows_.size]
        omega
      have item : (w.vectors i).item w.heap (beginIdx + k) = (c i)[beginIdx + k]? := shows_.at_ _
      rw [value k small, item, List.getElem?_eq_getElem inside]
      rfl
    · obtain ⟨h, u₂, done', -, new⟩ := shows_.sub lt (shows_.size ▸ below)
      cases done.symm.trans done'
      obtain ⟨h', u', run, grows'⟩ := new.pushAll pushes
      exact ⟨h', u', run, shows_.item_grow (grows.trans grows')⟩

def threeItems : List (Op Nat Nat) := [.new 0, .pushBackVector 0 [1, 2, 3]]

theorem threeItems_legal : LegalRun (fun _ => []) threeItems := ⟨trivial, trivial, trivial⟩

theorem sub_iff_middle : ∃ w : World Nat Nat, Reached w ∧ (w.vectors 0).size = 3 ∧
    ∃ h u, (w.vectors 0).sub w.heap 1 2 = some (h, u) ∧ u.size = 2 - 1 := by
  refine ⟨_, ⟨threeItems, threeItems_legal, rfl⟩, rfl, ?_⟩
  obtain ⟨h, u, done, size, -⟩ := (sub_iff ⟨threeItems, threeItems_legal, rfl⟩ 0 (by decide : 1 < 2) (by decide)).2 (by decide)
  exact ⟨h, u, done, size⟩

theorem whole_sub_past_views : ∃ w : World Nat Nat, Reached w ∧ (w.vectors 0).size = 3 ∧
    (w.vectors 0).sub w.heap 0 3 = none :=
  ⟨_, ⟨threeItems, threeItems_legal, rfl⟩, rfl, rfl⟩

end Prpc.LazyVectors
