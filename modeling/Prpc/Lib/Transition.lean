import Mathlib.Logic.Relation

namespace Prpc.Lib

variable {σ τ : Type*} {init : σ → Prop} {step : σ → σ → Prop}

inductive Reachable (init : σ → Prop) (step : σ → σ → Prop) : σ → Prop
  | initial {s : σ} (start : init s) : Reachable init step s
  | next {s t : σ} (reachable : Reachable init step s) (move : step s t) : Reachable init step t

theorem Reachable.invariant (inv : σ → Prop) (start : ∀ s, init s → inv s)
    (keep : ∀ s t, inv s → step s t → inv t) {s : σ} (reachable : Reachable init step s) :
    inv s := by
  induction reachable with
  | initial h => exact start _ h
  | next _ move ih => exact keep _ _ ih move

theorem Reachable.trans {s t : σ} (reachable : Reachable init step s)
    (path : Relation.ReflTransGen step s t) : Reachable init step t := by
  induction path with
  | refl => exact reachable
  | tail _ move ih => exact ih.next move

theorem Reachable.foldlM {α : Type*} {act : σ → α → Option σ} {s t : σ} {actions : List α}
    (sound : ∀ a ∈ actions, ∀ s t, act s a = some t → step s t) (reachable : Reachable init step s)
    (run : actions.foldlM act s = some t) : Reachable init step t := by
  induction actions generalizing s with
  | nil =>
    cases run
    exact reachable
  | cons a actions ih =>
    rw [List.foldlM_cons, Option.bind_eq_bind, Option.bind_eq_some_iff] at run
    obtain ⟨u, move, rest⟩ := run
    exact ih (fun b mem => sound b (List.mem_cons_of_mem _ mem))
      (reachable.next (sound a (List.mem_cons_self ..) s u move)) rest

end Prpc.Lib
